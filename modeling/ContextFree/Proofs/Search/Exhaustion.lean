import ContextFree.Proofs.Search.Exploration
import Mathlib.Data.Set.Card

/-!
# What an exploration does not miss

As long as a search is not cut off, every form met is still under way or has been dealt with
(`Space.Thorough`). When nothing is under way any more, all forms that moves can reach have been
met, and the words among them are found (`mem_explore_iff`).

A search comes to its end where moves can reach finitely many forms (`exists_ended_explore`):
every generation but the last brings a form that had not been met. A search for all words comes to
its end nowhere else (`finite_of_ended_explore`).
-/

namespace ContextFree.Space

variable {space : Space} {track : Bool} {t : Node} {ts : List Node} {p : Progress}

/-! ## The invariant -/

/-- The form has been dealt with: a word that is looked for is found, and the moves of any other
form lead to forms that have been met. -/
structure Settled (space : Space) (p : Progress) (f : Form) : Prop where
  word : f.all Symbol.isTerminal = true → space.wants f = true → f ∈ p.found.map Node.form
  moves : f.all Symbol.isTerminal = false → ∀ v, space.Leads f v → v ∈ p.seen

/-- Every form met is under way or has been dealt with. -/
structure Thorough (space : Space) (ts : List Node) (p : Progress) : Prop where
  start : [space.start] ∈ p.seen
  atOnce : space.Vanishes → [] ∈ p.found.map Node.form
  settled : ∀ f ∈ p.seen, f ∈ (ts ++ p.next).map Node.form ∨ space.Settled p f

lemma thorough_initial (space : Space) (track : Bool) :
    space.Thorough [Node.root track space.start] (space.initial track) where
  start := mem_seen_initial.2 rfl
  atOnce hvanishes := List.mem_map_of_mem (mem_foundAtOnce.2 ⟨rfl, hvanishes⟩)
  settled f hf := by
    rw [mem_seen_initial.1 hf]
    exact .inl (by simp [Node.root])

/-- What has been dealt with stays so while more is met and found. -/
lemma Settled.mono {q : Progress} {f : Form} (hset : space.Settled p f)
    (hfound : ∀ x ∈ p.found.map Node.form, x ∈ q.found.map Node.form)
    (hseen : ∀ x ∈ p.seen, x ∈ q.seen) : space.Settled q f where
  word ht hw := hfound f (hset.word ht hw)
  moves hn v hv := hseen v (hset.moves hn v hv)

lemma Thorough.push (hp : space.Thorough ts p) : space.Thorough ts (p.push t) := by
  rcases Progress.push_cases (p := p) (t := t) with ⟨-, heq⟩ | ⟨-, heq⟩
  · rwa [heq]
  · rw [heq]
    have hgrows : ∀ x ∈ p.seen, x ∈ p.seen.insert t.form :=
      fun x hx => Std.HashSet.mem_insert.2 (.inr hx)
    refine ⟨hgrows _ hp.start, hp.atOnce, fun f hf => ?_⟩
    rcases Std.HashSet.mem_insert.1 hf with hf | hf
    · rw [beq_iff_eq] at hf
      exact .inl (by simp [hf])
    · refine (hp.settled f hf).imp (fun hmem => ?_) fun hset => hset.mono (fun _ hx => hx) hgrows
      obtain ⟨t', ht', rfl⟩ := List.mem_map.1 hmem
      exact List.mem_map_of_mem (List.perm_middle.mem_iff.2 (List.mem_cons_of_mem _ ht'))

/-- A node whose form has been dealt with is no longer under way. -/
lemma Thorough.settle (hp : space.Thorough (t :: ts) p) (hset : space.Settled p t.form) :
    space.Thorough ts p := by
  refine ⟨hp.start, hp.atOnce, fun f hf => ?_⟩
  rcases hp.settled f hf with hmem | hset'
  · rw [List.cons_append, List.map_cons, List.mem_cons] at hmem
    rcases hmem with rfl | hmem
    · exact .inr hset
    · exact .inl hmem
  · exact .inr hset'

lemma Thorough.recount (hp : space.Thorough ts p) (checks : Nat) :
    space.Thorough ts { p with checks } :=
  ⟨hp.start, hp.atOnce,
    fun f hf => (hp.settled f hf).imp_right fun hset => ⟨hset.word, hset.moves⟩⟩

/-- A word that is found has been dealt with. -/
lemma Thorough.find (hp : space.Thorough (t :: ts) p)
    (hterminal : t.form.all Symbol.isTerminal = true) (checks : Nat) :
    space.Thorough ts { p with checks, found := t :: p.found } := by
  have hfound : ∀ x ∈ p.found.map Node.form, x ∈ (t :: p.found).map Node.form :=
    fun x hx => List.mem_cons_of_mem _ hx
  have hall : space.Thorough (t :: ts) { p with checks, found := t :: p.found } :=
    ⟨hp.start, fun hvanishes => hfound _ (hp.atOnce hvanishes), fun f hf =>
      (hp.settled f hf).imp_right fun hset => hset.mono hfound fun x hx => hx⟩
  refine hall.settle ⟨fun _ _ => List.mem_cons_self, fun hn => ?_⟩
  rw [hterminal] at hn
  contradiction

/-- A word that is not looked for needs no more. -/
lemma Thorough.pass (hp : space.Thorough (t :: ts) p)
    (hterminal : t.form.all Symbol.isTerminal = true) (hwants : ¬space.wants t.form = true) :
    space.Thorough ts p := by
  refine hp.settle ⟨fun _ hw => absurd hw hwants, fun hn => ?_⟩
  rw [hterminal] at hn
  contradiction

lemma Thorough.pushAll (hp : space.Thorough ts p) (l : List Node) :
    space.Thorough ts (l.foldl Progress.push p) := by
  induction l generalizing p with
  | nil => exact hp
  | cons t l ih => exact ih (hp.push (t := t))

/-- A form that is no word has been dealt with once all its moves are made. -/
lemma Thorough.expand (hp : space.Thorough (t :: ts) p)
    (hn : ¬t.form.all Symbol.isTerminal = true) :
    space.Thorough ts ((space.successors track t).foldl Progress.push p) := by
  refine (hp.pushAll (space.successors track t)).settle ⟨fun ht => absurd ht hn, fun _ v hv => ?_⟩
  obtain ⟨t', ht', rfl⟩ := leads_iff.1 hv
  exact Progress.mem_seen_pushAll.2 (.inl (List.mem_map_of_mem ht'))

/-! ## Completeness -/

/-- Where a single word is looked for, it is the only one. -/
lemma eq_of_wants {u v : Form} (htarget : space.target.isSome = true)
    (hu : space.wants u = true) (hv : space.wants v = true) : u = v := by
  obtain ⟨w, hw⟩ := Option.isSome_iff_exists.1 htarget
  simp only [wants, hw, Option.all_some, beq_iff_eq] at hu hv
  rw [hu, hv]

/-- A generation keeps the invariant, or it ends with what is looked for. -/
lemma Thorough.sweep (hp : space.Thorough ts p) :
    ((space.sweep track .never ts p).2 = false →
      space.Thorough [] (space.sweep track .never ts p).1) ∧
    ((space.sweep track .never ts p).2 = true → ∀ f, space.wants f = true →
      f ∈ (space.sweep track .never ts p).1.found.map Node.form) := by
  induction ts generalizing p with
  | nil => exact ⟨fun _ => hp, fun hflag => absurd hflag Bool.false_ne_true⟩
  | cons t ts ih =>
    obtain ⟨checks, found, seen, next⟩ := p
    rw [Space.sweep, Cutoff.reached_never, if_neg Bool.false_ne_true]
    split
    · rename_i hterminal
      split
      · rename_i hwants
        split
        · rename_i htarget
          refine ⟨fun hflag => absurd hflag.symm Bool.false_ne_true, fun _ f hf => ?_⟩
          rw [eq_of_wants htarget hf hwants]
          exact List.mem_cons_self
        · exact ih (hp.find hterminal (checks + 1))
      · rename_i hwants
        exact ih ((hp.pass hterminal hwants).recount (checks + 1))
    · rename_i hn
      exact ih ((hp.recount (checks + 1)).expand hn)

lemma Thorough.advance (hp : space.Thorough [] p) :
    space.Thorough p.next.reverse { p with next := [] } := by
  refine ⟨hp.start, hp.atOnce,
    fun f hf => (hp.settled f hf).imp (fun hmem => ?_) fun hset => ?_⟩
  · simpa using hmem
  · exact ⟨hset.word, hset.moves⟩

/-- Moves replace nonterminals, so they begin at forms that are no words. -/
def ExpandsNonwords (space : Space) : Prop :=
  ∀ u v, space.Leads u v → u.all Symbol.isTerminal = false

/-- The form is a word that is looked for, and the search comes upon it at once or by moves. -/
def Attains (space : Space) (f : Form) : Prop :=
  (f = [] ∧ space.Vanishes) ∨
    (Relation.ReflTransGen space.Leads [space.start] f ∧ f.all Symbol.isTerminal = true ∧
      space.wants f = true)

lemma Finds.attains (ht : space.Finds track t) : space.Attains t.form := by
  rcases ht with ht | ⟨hreached, hterminal, hwants⟩
  · obtain ⟨rfl, hvanishes⟩ := mem_foundAtOnce.1 ht
    exact .inl ⟨rfl, hvanishes⟩
  · exact .inr ⟨hreached.path, hterminal, hwants⟩

lemma Attains.wants {f : Form} (hf : space.Attains f) : space.wants f = true := by
  rcases hf with ⟨rfl, -, hwants⟩ | ⟨-, -, hwants⟩
  · exact hwants
  · exact hwants

/-- The forms that moves can reach. -/
def forms (space : Space) : Set Form := {f | Relation.ReflTransGen space.Leads [space.start] f}

/-- When nothing is under way, all forms that have been met have been dealt with. -/
lemma Thorough.settled_of_mem (hp : space.Thorough [] p) (hnext : p.next = []) {f : Form}
    (hf : f ∈ p.seen) : space.Settled p f := by
  have hcases := hp.settled f hf
  rw [hnext] at hcases
  exact hcases.resolve_left (by simp)

/-- Then all forms that moves can reach have been met: along a path, every form is met because of
the one before it. -/
lemma Thorough.mem_seen (hspace : space.ExpandsNonwords) (hp : space.Thorough [] p)
    (hnext : p.next = []) {f : Form} (hf : f ∈ space.forms) : f ∈ p.seen := by
  induction hf with
  | refl => exact hp.start
  | tail _ hlead ih => exact (hp.settled_of_mem hnext ih).moves (hspace _ _ hlead) _ hlead

/-- And the words among them are found. -/
lemma Thorough.mem_found (hspace : space.ExpandsNonwords) (hp : space.Thorough [] p)
    (hnext : p.next = []) {f : Form} (hf : space.Attains f) : f ∈ p.found.map Node.form := by
  rcases hf with ⟨rfl, hvanishes⟩ | ⟨hpath, hterminal, hwants⟩
  · exact hp.atOnce hvanishes
  · exact (hp.settled_of_mem hnext (hp.mem_seen hspace hnext hpath)).word hterminal hwants

lemma Thorough.generations (hspace : space.ExpandsNonwords) (rounds : Nat)
    (hp : space.Thorough ts p) (hnext : p.next = []) {f : Form} (hf : space.Attains f)
    (hended : (space.generations track .never rounds ts p).ended = true) :
    f ∈ (space.generations track .never rounds ts p).found.map Node.form := by
  fun_induction Space.generations space track .never rounds ts p with
  | case1 rounds p =>
    rw [List.map_reverse, List.mem_reverse]
    exact hp.mem_found hspace hnext hf
  | case2 => contradiction
  | case3 rounds ts p _ checks found seen next hsweep =>
    have hfound := hp.sweep.2 (by rw [hsweep]) f hf.wants
    rw [hsweep] at hfound
    rw [List.map_reverse, List.mem_reverse]
    exact hfound
  | case4 rounds ts p _ checks found seen next hsweep ih =>
    have hthorough := hp.sweep.1 (by rw [hsweep])
    rw [hsweep] at hthorough
    exact ih hthorough.advance rfl hended

/-- An exploration that is not cut off and comes to its end has found exactly the words that the
search can come upon. -/
theorem mem_explore_iff (hlength : space.Lengthens) (hspace : space.ExpandsNonwords)
    {rounds : Nat} {f : Form} (hended : (space.explore track .never rounds).ended = true) :
    f ∈ (space.explore track .never rounds).found.map Node.form ↔ space.Attains f := by
  constructor
  · intro hf
    obtain ⟨t, ht, rfl⟩ := List.mem_map.1 hf
    exact ((explore_sound hlength track .never rounds).1 t ht).attains
  · intro hf
    unfold explore at hended ⊢
    dsimp only at hended ⊢
    rw [Cutoff.reached_never, if_neg Bool.false_ne_true] at hended ⊢
    split
    · rename_i hatOnce
      -- the target is the empty word, and there is no other
      rw [Bool.and_eq_true, Bool.not_eq_true', List.isEmpty_eq_false_iff_exists_mem] at hatOnce
      obtain ⟨htarget, t, ht⟩ := hatOnce
      have hwants : space.wants t.form = true := (Finds.attains (.inl ht)).wants
      rw [eq_of_wants htarget hf.wants hwants]
      exact List.mem_map_of_mem ht
    · rename_i hgo
      rw [if_neg hgo] at hended
      exact (space.thorough_initial track).generations hspace rounds rfl hf hended

/-! ## Termination -/

/-- What has been met stays met, and the next generation grows only by forms that had not been
met. -/
structure Advances (p q : Progress) : Prop where
  seen : ∀ f ∈ p.seen, f ∈ q.seen
  next : q.next = p.next ∨ ∃ f, f ∉ p.seen ∧ f ∈ q.seen

lemma Advances.refl (p : Progress) : Advances p p := ⟨fun _ hf => hf, .inl rfl⟩

lemma Advances.trans {q r : Progress} (hpq : Advances p q) (hqr : Advances q r) :
    Advances p r := by
  refine ⟨fun f hf => hqr.seen f (hpq.seen f hf), ?_⟩
  rcases hpq.next with hnext | ⟨f, hnew, hf⟩
  · rcases hqr.next with hnext' | ⟨f, hnew, hf⟩
    · exact .inl (hnext'.trans hnext)
    · exact .inr ⟨f, fun hold => hnew (hpq.seen f hold), hf⟩
  · exact .inr ⟨f, hnew, hqr.seen f hf⟩

lemma Advances.push : Advances p (p.push t) := by
  refine ⟨fun f hf => Progress.mem_seen_push.2 (.inr hf), ?_⟩
  rcases Progress.push_cases (p := p) (t := t) with ⟨-, heq⟩ | ⟨hnew, -⟩
  · exact .inl (by rw [heq])
  · exact .inr ⟨t.form, hnew, Progress.mem_seen_push.2 (.inl rfl)⟩

lemma Advances.pushAll (l : List Node) : Advances p (l.foldl Progress.push p) := by
  induction l generalizing p with
  | nil => exact .refl p
  | cons t l ih => exact Advances.push.trans (ih (p := p.push t))

/-- A generation advances, whatever becomes of it. -/
lemma Advances.sweep (cutoff : Cutoff) : Advances p (space.sweep track cutoff ts p).1 := by
  induction ts generalizing p with
  | nil => exact .refl p
  | cons t ts ih =>
    obtain ⟨checks, found, seen, next⟩ := p
    have hsame : ∀ checks' found', Advances ⟨checks, found, seen, next⟩
        ⟨checks', found', seen, next⟩ := fun _ _ => ⟨fun _ hf => hf, .inl rfl⟩
    rw [Space.sweep]
    split
    · exact hsame _ _
    · split
      · split
        · split
          · exact hsame _ _
          · exact (hsame _ _).trans ih
        · exact (hsame _ _).trans ih
      · exact ((hsame (checks + 1) found).trans (.pushAll (space.successors track t))).trans ih

/-- A generation meets no form but those that moves can reach. -/
lemma seen_sweep_subset (cutoff : Cutoff) (hts : ∀ t ∈ ts, space.Reached track t)
    (hseen : ∀ f ∈ p.seen, f ∈ space.forms) :
    ∀ f ∈ (space.sweep track cutoff ts p).1.seen, f ∈ space.forms := by
  induction ts generalizing p with
  | nil => exact hseen
  | cons t ts ih =>
    obtain ⟨checks, found, seen, next⟩ := p
    obtain ⟨ht, hts⟩ := List.forall_mem_cons.1 hts
    rw [Space.sweep]
    split
    · exact hseen
    · split
      · split
        · split
          · exact hseen
          · exact ih hts hseen
        · exact ih hts hseen
      · refine ih hts fun f hf => ?_
        rcases Progress.mem_seen_pushAll.1 hf with hf | hf
        · obtain ⟨t', ht', rfl⟩ := List.mem_map.1 hf
          exact (Reached.move ht ht').path
        · exact hseen f hf

/-- As many generations suffice as there are forms that have not been met, and one more. -/
lemma ended_generations (hlength : space.Lengthens) (hfinite : space.forms.Finite) (rounds : Nat)
    (hs : space.Sound track ts p) (hseen : ∀ f ∈ p.seen, f ∈ space.forms) (hnext : p.next = [])
    (hrounds : Set.ncard {f ∈ space.forms | f ∉ p.seen} < rounds) :
    (space.generations track .never rounds ts p).ended = true := by
  fun_induction Space.generations space track .never rounds ts p with
  | case1 => rfl
  | case2 => exact absurd hrounds (Nat.not_lt_zero _)
  | case3 => rfl
  | case4 rounds ts p _ checks found seen next hsweep ih =>
    have hadvances : Advances p (space.sweep track .never ts p).1 := .sweep .never
    have hsound : space.Sound track [] (space.sweep track .never ts p).1 := hs.sweep hlength
    have hreached := seen_sweep_subset .never
      (fun t ht => hs.reached t (List.mem_append_left _ ht)) hseen
    rw [hsweep] at hadvances hsound hreached
    rcases hadvances.next with hsame | ⟨f, hnew, hf⟩
    · -- nothing new: the next generation is empty
      rw [show next = [] from hsame.trans hnext, List.reverse_nil, generations_nil]
    · refine ih hsound.advance hreached rfl ?_
      have hfewer : {f ∈ space.forms | f ∉ seen} ⊂ {f ∈ space.forms | f ∉ p.seen} := by
        refine ⟨fun x hx => ⟨hx.1, fun hold => hx.2 (hadvances.seen x hold)⟩, fun hsub => ?_⟩
        exact (hsub ⟨hreached f hf, hnew⟩).2 hf
      have hlt := Set.ncard_lt_ncard hfewer (hfinite.subset fun x hx => hx.1)
      show Set.ncard {f ∈ space.forms | f ∉ seen} < rounds
      omega

/-- An exploration that is not cut off comes to its end if moves can reach finitely many forms. -/
theorem exists_ended_explore (hlength : space.Lengthens) (hfinite : space.forms.Finite) :
    ∃ n, ∀ rounds ≥ n, (space.explore track .never rounds).ended = true := by
  refine ⟨Set.ncard {f ∈ space.forms | f ∉ (space.initial track).seen} + 1,
    fun rounds hrounds => ?_⟩
  have hseen : ∀ f ∈ (space.initial track).seen, f ∈ space.forms := by
    intro f hf
    rw [mem_seen_initial.1 hf]
    exact .refl
  unfold explore
  dsimp only
  rw [Cutoff.reached_never, if_neg Bool.false_ne_true]
  split
  · rfl
  · have hended : (space.generations track .never rounds [Node.root track space.start]
        (space.initial track)).ended = true :=
      ended_generations hlength hfinite rounds (space.sound_initial track) hseen rfl (by omega)
    exact hended

/-- A bound on the viable forms bounds all that moves can reach. -/
lemma finite_forms {U : Set Form} (hU : U.Finite)
    (hviable : ∀ f, space.viable f = true → f ∈ U) : space.forms.Finite := by
  refine (hU.insert [space.start]).subset fun f hf => ?_
  rcases Relation.ReflTransGen.cases_tail hf with rfl | ⟨u, -, hlead⟩
  · exact Set.mem_insert _ _
  · exact Set.mem_insert_of_mem _ (hviable f (viable_of_leads hlead))

/-! ### Without a target -/

/-- A generation ends before its last form only if there is a word to be looked for. -/
lemma target_of_sweep {cutoff : Cutoff} (hflag : (space.sweep track cutoff ts p).2 = true) :
    space.target.isSome = true := by
  induction ts generalizing p with
  | nil => exact absurd hflag Bool.false_ne_true
  | cons t ts ih =>
    obtain ⟨checks, found, seen, next⟩ := p
    rw [Space.sweep] at hflag
    split at hflag
    · exact absurd hflag Bool.false_ne_true
    · split at hflag
      · split at hflag
        · split at hflag
          · assumption
          · exact ih hflag
        · exact ih hflag
      · exact ih hflag

/-- If nothing is under way any more, all forms that moves can reach have been met. -/
lemma finite_of_ended_generations (hspace : space.ExpandsNonwords) (htarget : space.target = none)
    (rounds : Nat) (hp : space.Thorough ts p) (hnext : p.next = [])
    (hended : (space.generations track .never rounds ts p).ended = true) : space.forms.Finite := by
  fun_induction Space.generations space track .never rounds ts p with
  | case1 rounds p =>
    refine (List.finite_toSet p.seen.toList).subset fun f hf => ?_
    exact Std.HashSet.mem_toList.2 (hp.mem_seen hspace hnext hf)
  | case2 => contradiction
  | case3 rounds ts p _ checks found seen next hsweep =>
    have hsome := target_of_sweep (show (space.sweep track .never ts p).2 = true by rw [hsweep])
    rw [htarget] at hsome
    contradiction
  | case4 rounds ts p _ checks found seen next hsweep ih =>
    have hthorough := hp.sweep.1 (by rw [hsweep])
    rw [hsweep] at hthorough
    exact ih hthorough.advance rfl hended

/-- An exploration for all words comes to its end only if moves can reach finitely many forms. -/
theorem finite_of_ended_explore (hspace : space.ExpandsNonwords) (htarget : space.target = none)
    {rounds : Nat} (hended : (space.explore track .never rounds).ended = true) :
    space.forms.Finite := by
  have hgo : ¬(space.target.isSome && !(space.foundAtOnce track).isEmpty) = true := by
    simp [htarget]
  unfold explore at hended
  dsimp only at hended
  rw [Cutoff.reached_never, if_neg Bool.false_ne_true, if_neg hgo] at hended
  exact finite_of_ended_generations hspace htarget rounds (space.thorough_initial track) rfl hended

end ContextFree.Space
