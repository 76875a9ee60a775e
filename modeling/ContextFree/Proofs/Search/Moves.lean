import ContextFree.Proofs.Erasers
import ContextFree.Proofs.Search.Exploration

/-!
# The moves of a grammar

In the space of a grammar, a move replaces a nonterminal by what a marking keeps of one of its
bodies (`mem_successors_ofGrammar`). Conversely every contraction of a body gives a move, as long
as the bodies are within the capacity: the contracted bodies make a grammar (`Space.grammar`)
that has all contractions of the given one (`contracts_grammar`).
-/

namespace ContextFree

/-- The leftmost occurrence of a symbol is the one with none before it. -/
lemma Form.splitAt?_append_cons {s : Symbol} {left : Form} (right : Form) (hleft : s ∉ left) :
    Form.splitAt? s (left ++ s :: right) = some (left, right) := by
  induction left with
  | nil => simp [Form.splitAt?]
  | cons t left ih =>
    rw [List.mem_cons, not_or] at hleft
    rw [List.cons_append, Form.splitAt?, if_neg (Ne.symm hleft.1), ih hleft.2, Option.map_some]

namespace Contraction

variable {a : Symbol} {seen : List Form} {ms : List Marking} {c : Contraction} {m : Marking}

lemma of_mem_distinct (hc : c ∈ distinct a seen ms) :
    c.marking ∈ ms ∧ c.body ≠ [] ∧ c.body ≠ [a] := by
  induction ms generalizing seen with
  | nil => exact absurd hc List.not_mem_nil
  | cons m ms ih =>
    rw [distinct] at hc
    split at hc
    · obtain ⟨hmem, hbody⟩ := ih hc
      exact ⟨List.mem_cons_of_mem _ hmem, hbody⟩
    · rename_i hnew
      rcases List.mem_cons.1 hc with rfl | hc
      · simp only [Bool.or_eq_true, List.isEmpty_iff, beq_iff_eq, not_or] at hnew
        exact ⟨List.mem_cons_self, hnew.1.1, hnew.1.2⟩
      · obtain ⟨hmem, hbody⟩ := ih hc
        exact ⟨List.mem_cons_of_mem _ hmem, hbody⟩

/-- No contracted body gets lost, though its marking may be another one. -/
lemma exists_mem_distinct (hm : m ∈ ms) (hne : m.kept ≠ []) (hself : m.kept ≠ [a])
    (hseen : m.kept ∉ seen) : ∃ c ∈ distinct a seen ms, c.body = m.kept := by
  induction ms generalizing seen with
  | nil => exact absurd hm List.not_mem_nil
  | cons m' ms ih =>
    rw [distinct]
    split
    · rename_i hskip
      rcases List.mem_cons.1 hm with rfl | hm
      · simp [hne, hself, hseen] at hskip
      · exact ih hm hseen
    · by_cases heq : m.kept = m'.kept
      · exact ⟨_, List.mem_cons_self, heq.symm⟩
      · rcases List.mem_cons.1 hm with rfl | hm
        · contradiction
        · have hseen' : m.kept ∉ m'.kept :: seen := by simp [heq, hseen]
          obtain ⟨c, hc, hbody⟩ := ih hm hseen'
          exact ⟨c, List.mem_cons_of_mem _ hc, hbody⟩

end Contraction

namespace Space

variable {g : Grammar} {limit : Option Nat} {target : Option Form} {space : Space}
  {track : Bool} {t t' : Node} {u v : Form}

/-! ## The rules of the space -/

/-- The nonterminals with an eraser are the nullable ones. -/
lemma any_erasers_eq :
    (fun s => g.erasers.any fun p => p.head == s) = fun s => decide (s ∈ g.nullable) := by
  funext s
  rw [Bool.eq_iff_iff, List.any_eq_true, decide_eq_true_iff, ← Grammar.mem_erasers_iff]
  simp only [beq_iff_eq]

lemma mem_rules {rule : Symbol × List Contraction} :
    rule ∈ (ofGrammar g limit target).rules ↔ ∃ a, (∃ p ∈ g.productions, p.head = a) ∧
      rule = (a, Contraction.distinct a [] ((g.bodies a).flatMap
        (Marking.choices fun s => decide (s ∈ g.nullable)))) := by
  simp only [ofGrammar, any_erasers_eq, List.mem_map, Grammar.mem_heads]
  exact exists_congr fun a => and_congr_right fun _ => eq_comm

/-- Every contracted body is what is left of a body of the grammar without nullable symbols. -/
lemma of_mem_contractions {rule : Symbol × List Contraction}
    (hrule : rule ∈ (ofGrammar g limit target).rules) {c : Contraction} (hc : c ∈ rule.2) :
    (⟨rule.1, c.marking.origin⟩ : Production) ∈ g.productions ∧
      (c.marking.Erases fun s => s ∈ g.nullable) ∧ c.body ≠ [] := by
  obtain ⟨a, -, rfl⟩ := mem_rules.1 hrule
  obtain ⟨hmarking, hne, -⟩ := Contraction.of_mem_distinct hc
  obtain ⟨body, hbody, hchoice⟩ := List.mem_flatMap.1 hmarking
  obtain ⟨horigin, herases⟩ := Marking.of_mem_choices hchoice
  refine ⟨?_, fun mark hmark he => by simpa using herases mark hmark he, hne⟩
  rw [horigin]
  exact Grammar.mem_bodies.1 hbody

/-- A move of a grammar, with the production that it applies and the symbols that vanish. -/
structure MovesBy (g : Grammar) (u v : Form) (a : Symbol) (move : Move) : Prop where
  production : (⟨a, move.marking.origin⟩ : Production) ∈ g.productions
  erases : move.marking.Erases fun s => s ∈ g.nullable
  source : u = move.left ++ a :: move.right
  result : v = move.left ++ move.marking.kept ++ move.right

/-- Every successor of a node comes from a move of the grammar, and if chains are tracked, the move
is replayed. -/
lemma mem_successors_ofGrammar (ht' : t' ∈ (ofGrammar g limit target).successors track t) :
    ∃ a move, MovesBy g t.form t'.form a move ∧ t'.chain = t.replay track g.erasers move := by
  obtain ⟨rule, hrule, left, right, hsplit, c, hc, -, rfl⟩ := mem_successors.1 ht'
  obtain ⟨hp, herases, -⟩ := of_mem_contractions hrule hc
  refine ⟨rule.1, ⟨left, c.marking, right⟩, ⟨hp, herases, Form.eq_of_splitAt? hsplit, ?_⟩, rfl⟩
  rw [← c.body_eq, List.append_assoc]

/-! ## The contracted bodies as a grammar -/

/-- The grammar of the contracted bodies. -/
def grammar (space : Space) : Grammar where
  start := space.start
  productions :=
    .ofList (space.rules.flatMap fun rule => rule.2.map fun c => ⟨rule.1, c.body⟩)

lemma mem_grammar {p : Production} :
    p ∈ space.grammar.productions ↔
      ∃ rule ∈ space.rules, ∃ c ∈ rule.2, (⟨rule.1, c.body⟩ : Production) = p := by
  simp [grammar]

/-- Every contraction within the capacity is a body of that grammar. -/
theorem contracts_grammar (hcap : g.WithinCapacity) :
    g.Contracts (ofGrammar g limit target).grammar := by
  intro a m hp herases hne hself
  have hchoice : m ∈ Marking.choices (fun s => decide (s ∈ g.nullable)) m.origin :=
    Marking.mem_choices (hcap _ hp) rfl fun mark hmark he =>
      decide_eq_true (herases mark hmark he)
  have hmem : m ∈ (g.bodies a).flatMap (Marking.choices fun s => decide (s ∈ g.nullable)) :=
    List.mem_flatMap.2 ⟨m.origin, Grammar.mem_bodies.2 hp, hchoice⟩
  obtain ⟨c, hc, hbody⟩ := Contraction.exists_mem_distinct hmem hne hself List.not_mem_nil
  refine mem_grammar.2 ⟨_, mem_rules.2 ⟨a, ⟨_, hp, rfl⟩, rfl⟩, c, hc, ?_⟩
  rw [hbody]

/-- Where its head is a leftmost occurrence, a production of that grammar is a move. -/
lemma leads_of_mem_grammar {p : Production} (hp : p ∈ space.grammar.productions)
    {left right : Form} (hleft : p.head ∉ left)
    (hviable : space.viable (left ++ (p.body ++ right)) = true) :
    space.Leads (left ++ p.head :: right) (left ++ (p.body ++ right)) := by
  obtain ⟨rule, hrule, c, hc, rfl⟩ := mem_grammar.1 hp
  exact ⟨rule, hrule, left, right, Form.splitAt?_append_cons right hleft, c, hc, rfl, hviable⟩

/-- A move is a step of that grammar. -/
lemma step_of_leads (huv : space.Leads u v) : space.grammar.Step u v := by
  obtain ⟨rule, hrule, left, right, hsplit, c, hc, rfl, -⟩ := huv
  have hp : (⟨rule.1, c.body⟩ : Production) ∈ space.grammar.productions :=
    mem_grammar.2 ⟨rule, hrule, c, hc, rfl⟩
  rw [Form.eq_of_splitAt? hsplit, ← List.append_assoc]
  exact .apply left right hp

/-- The productions of that grammar are not empty, and the given grammar makes up for them. -/
lemma of_mem_grammar {p : Production}
    (hp : p ∈ (ofGrammar g limit target).grammar.productions) :
    (∃ q ∈ g.productions, q.head = p.head) ∧ p.body ≠ [] ∧ g.Derives [p.head] p.body := by
  obtain ⟨rule, hrule, c, hc, rfl⟩ := mem_grammar.1 hp
  obtain ⟨horigin, herases, hne⟩ := of_mem_contractions hrule hc
  refine ⟨⟨_, horigin, rfl⟩, hne, (Grammar.derives_body horigin).trans ?_⟩
  rw [c.body_eq]
  exact Grammar.derives_kept fun mark hmark he =>
    Grammar.mem_nullable_iff.1 (herases mark hmark he)

lemma lengthens_ofGrammar : (ofGrammar g limit target).Lengthens := by
  intro u v huv
  obtain ⟨left, right, hp⟩ := step_of_leads huv
  simp [(of_mem_grammar hp).2.1]

end Space

end ContextFree
