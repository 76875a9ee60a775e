import ContextFree.SortedSet

/-!
# Symbols

A symbol is a single character. Two disjoint alphabets say which characters may occur in a
grammar, and as what: the nonterminals, in the order in which fresh ones are taken, and the
terminals. The alphabet order, nonterminals first, is the order in which symbols are listed
everywhere. It extends to all characters (`Symbol.rank`), the others following by their code.
-/

namespace ContextFree

/-- A grammar symbol, written as a single character. -/
abbrev Symbol := Char

namespace Symbol

/-- The nonterminal kept for a new start symbol. It is never taken as a fresh name. -/
def reserved : Symbol := '$'

/-- The admissible nonterminals, in the order in which fresh ones are taken. -/
def nonterminals : List Symbol :=
  ['A', 'B', 'C', 'D', 'E', 'F', 'G', 'H', 'I', 'J', 'K', 'L', 'M',
    'N', 'O', 'P', 'Q', 'R', 'S', 'T', 'U', 'V', 'W', 'X', 'Y', 'Z',
    'À', 'Á', 'Â', 'Ã', 'Ä', 'Å', 'Ç', 'È', 'É', 'Ê', 'Ë', 'Ì', 'Í',
    'Î', 'Ï', 'Ñ', 'Ò', 'Ó', 'Ô', 'Õ', 'Ö', 'Ù', 'Ú', 'Û', 'Ü', 'Ý',
    'Ā', 'Ă', 'Ą', 'Ć', 'Ĉ', 'Ċ', 'Č', 'Ď', 'Đ', 'Ē', 'Ĕ', 'Ė', 'Ę', 'Ě', 'Ĝ',
    'Ğ', 'Ġ', 'Ģ', 'Ĥ', 'Ĩ', 'Ī', 'Ĭ', 'Į', 'İ', 'Ĵ', 'Ķ', 'Ĺ', 'Ļ', 'Ľ', 'Ŀ',
    'Ł', 'Ń', 'Ņ', 'Ň', 'Ŋ', 'Ō', 'Ŏ', 'Ő', 'Ŕ', 'Ŗ', 'Ř', 'Ś', 'Ŝ', 'Ş', 'Š',
    'Ţ', 'Ť', 'Ŧ', 'Ũ', 'Ū', 'Ŭ', 'Ů', 'Ű', 'Ų', 'Ŵ', 'Ŷ', 'Ÿ', 'Ź', 'Ż', 'Ž',
    'Ɔ', 'Ə', 'Ɣ', 'Ɲ', 'Ơ', 'Ư', 'Ʊ', 'Ʋ', 'Ǎ', 'Ǥ', 'Ǧ', 'Ǫ', 'Ǻ', 'Ș', 'Ț', 'Ȟ', 'Ȳ', 'Þ',
    'Ɗ', 'Ƌ', 'Ƒ', 'Ɠ', 'Ɨ', 'Ƙ', 'Ɯ', 'Ɵ', 'Ƣ', 'Ƥ', 'Ʀ', 'Ƨ', 'Ƭ', 'Ʈ', 'Ƴ', 'Ƶ', 'Ƹ',
    'Ǐ', 'Ǒ', 'Ǔ', 'Ǖ', 'Ǘ', 'Ǚ', 'Ǜ', 'Ǟ', 'Ǡ', 'Ǩ', 'Ǭ', 'Ǯ', 'Ǵ', 'Ƿ',
    'Ǹ', 'Ȁ', 'Ȃ', 'Ȅ', 'Ȇ', 'Ȉ', 'Ȋ', 'Ȍ', 'Ȏ', 'Ȑ', 'Ȓ', 'Ȕ', 'Ȗ', 'Ƞ',
    'Ȥ', 'Ȧ', 'Ȩ', 'Ȫ', 'Ȭ', 'Ȯ', 'Ȱ', 'Ɂ', 'Ƀ', 'Ʉ', 'Ɉ', 'Ɋ', 'Ɍ',
    '$']

/-- The admissible terminals. -/
def terminals : List Symbol :=
  ['a', 'b', 'c', 'd', 'e', 'f', 'g', 'h', 'i', 'j', 'k', 'l', 'm',
    'n', 'o', 'p', 'q', 'r', 's', 't', 'u', 'v', 'w', 'x', 'y', 'z',
    '0', '1', '2', '3', '4', '5', '6', '7', '8', '9',
    '!', '@', '%', '^', '&', '*', '(', ')', '-', '=', '+', '[',
    ']', '\x7b', '\x7d', '\\', ';', ':', '<', '.', '>', '/', '?', ',']

/-- Both alphabets, nonterminals first. -/
def alphabet : List Symbol := nonterminals ++ terminals

/-- Whether a symbol is an admissible nonterminal. -/
def isNonterminal (s : Symbol) : Bool := nonterminals.contains s

/-- Whether a symbol is an admissible terminal. -/
def isTerminal (s : Symbol) : Bool := terminals.contains s

/-- Whether a symbol may occur in a grammar at all. -/
def isAdmissible (s : Symbol) : Bool := isNonterminal s || isTerminal s

theorem isNonterminal_iff {s : Symbol} : isNonterminal s = true ↔ s ∈ nonterminals := by
  simp [isNonterminal]

theorem isTerminal_iff {s : Symbol} : isTerminal s = true ↔ s ∈ terminals := by
  simp [isTerminal]

/-- Whether a code lies where the nonterminals are: at `$`, among the capitals of ASCII or
beyond ASCII. -/
def isCapitalCode (code : Nat) : Bool :=
  code == 0x24 || (0x41 ≤ code && code ≤ 0x5a) || 0x7f < code

theorem isCapitalCode_of_mem_nonterminals {s : Symbol} (h : s ∈ nonterminals) :
    isCapitalCode s.toNat = true := by
  have hall : nonterminals.all (fun s => isCapitalCode s.toNat) = true := by decide +kernel
  exact List.all_eq_true.1 hall s h

theorem not_isCapitalCode_of_mem_terminals {s : Symbol} (h : s ∈ terminals) :
    isCapitalCode s.toNat = false := by
  have hall : terminals.all (fun s => !isCapitalCode s.toNat) = true := by decide +kernel
  simpa using List.all_eq_true.1 hall s h

/-- The alphabets have no symbol in common. -/
theorem isTerminal_eq_false {s : Symbol} (h : isNonterminal s = true) : isTerminal s = false := by
  have hs := isCapitalCode_of_mem_nonterminals (isNonterminal_iff.1 h)
  -- a terminal would have a code on the other side
  rw [← Bool.not_eq_true]
  intro ht
  have hs' := not_isCapitalCode_of_mem_terminals (isTerminal_iff.1 ht)
  rw [hs] at hs'
  contradiction

theorem isNonterminal_eq_false {s : Symbol} (h : isTerminal s = true) :
    isNonterminal s = false := by
  rw [← Bool.not_eq_true]
  intro hs
  rw [isTerminal_eq_false hs] at h
  contradiction

theorem isNonterminal_reserved : isNonterminal reserved = true := by decide +kernel

/-- The place of a symbol in the alphabet. Any other character comes after the alphabet,
by its code. -/
def rank (s : Symbol) : Nat :=
  let place := alphabet.idxOf s
  if place < alphabet.length then place else alphabet.length + s.toNat

/-- Members of a list that are first met at the same place are equal. -/
theorem eq_of_idxOf_eq {l : List Symbol} {s t : Symbol} (hs : l.idxOf s < l.length)
    (h : l.idxOf s = l.idxOf t) : s = t := by
  have ht : l.idxOf t < l.length := h ▸ hs
  rw [← List.getElem_idxOf hs, ← List.getElem_idxOf ht]
  simp only [h]

/-- Different symbols have different places. -/
theorem rank_inj {s t : Symbol} (h : rank s = rank t) : s = t := by
  simp only [rank] at h
  split at h <;> split at h
  · rename_i hs _
    exact eq_of_idxOf_eq hs h
  · omega
  · omega
  · exact Char.toNat_inj.1 (by omega)

/-- Symbols stand in alphabet order. -/
instance : Ordered Symbol where
  before s t := decide (rank s < rank t)
  before_irrefl s := by simp
  before_trans h h' := by
    simp only [decide_eq_true_eq] at h h' ⊢
    omega
  eq_of_not_before h h' := by
    simp only [decide_eq_false_iff_not] at h h'
    exact rank_inj (by omega)

end Symbol

end ContextFree
