import ContextFree.Grammar.Reader
import Mathlib.Data.List.Basic
import Mathlib.Data.List.DropRight
import Mathlib.Tactic.Common

/-!
# Lines of a text

Cutting and joining are the list functions of that name, so what is cut can be joined again and
the other way round. The lines of a grammar text that count are tidy: they are not empty, have
neither line breaks nor comments, and no blanks at their ends (`tidy_of_mem_relevantLines`).
Conversely tidy lines, each ended by a line break, are the relevant lines of the text they make
(`relevantLines_unlines`).
-/

namespace ContextFree

namespace Text

variable {separator : Char} {text part : List Char} {parts : List (List Char)}

/-! ## Cutting and joining -/

lemma splitOn_eq (separator : Char) (text : List Char) :
    splitOn separator text = text.splitOn separator := by
  induction text with
  | nil => rw [List.splitOn_nil, splitOn]
  | cons c rest ih =>
    rw [splitOn, List.splitOn_cons_eq_if_modifyHead, ih]
    by_cases hc : c = separator
    · simp [hc]
    · have hne : rest.splitOn separator ≠ [] := List.splitOn_ne_nil separator rest
      cases hrest : rest.splitOn separator with
      | nil => exact absurd hrest hne
      | cons part parts => simp [hc]

lemma joinWith_eq (separator : List Char) (parts : List (List Char)) :
    joinWith separator parts = separator.intercalate parts := by
  fun_induction joinWith separator parts with
  | case1 => rw [List.intercalate_nil]
  | case2 part => rw [List.intercalate_singleton]
  | case3 part parts hne ih => rw [List.intercalate_cons_of_ne_nil hne, ih, List.append_assoc]

lemma joinWith_splitOn : joinWith [separator] (splitOn separator text) = text := by
  rw [joinWith_eq, splitOn_eq]
  exact List.intercalate_splitOn separator

lemma splitOn_joinWith (hparts : ∀ part ∈ parts, separator ∉ part) (hne : parts ≠ []) :
    splitOn separator (joinWith [separator] parts) = parts := by
  rw [joinWith_eq, splitOn_eq]
  exact List.splitOn_intercalate separator hparts hne

lemma not_mem_of_mem_splitOn (hpart : part ∈ splitOn separator text) : separator ∉ part := by
  induction text generalizing part with
  | nil =>
    rw [splitOn, List.mem_singleton] at hpart
    simp [hpart]
  | cons c rest ih =>
    rw [splitOn] at hpart
    split at hpart
    · rcases List.mem_cons.1 hpart with rfl | hpart
      · simp
      · exact ih hpart
    · rename_i hc
      have hne := splitOn_ne_nil separator rest
      cases hrest : splitOn separator rest with
      | nil => exact absurd hrest hne
      | cons first others =>
        simp only [hrest, List.mem_cons] at hpart ih
        rcases hpart with rfl | hpart
        · have hfirst : separator ∉ first := ih (.inl rfl)
          simp [hfirst, Ne.symm hc]
        · exact ih (.inr hpart)

/-- What is dropped everywhere can be dropped from the parts. -/
lemma splitOn_filter {keep : Char → Bool} (hkeep : keep separator = true) :
    splitOn separator (text.filter keep) = (splitOn separator text).map (List.filter keep) := by
  induction text with
  | nil => rfl
  | cons c rest ih =>
    by_cases hc : c = separator
    · subst hc
      rw [List.filter_cons_of_pos hkeep, splitOn, if_pos rfl, splitOn, if_pos rfl, ih,
        List.map_cons, List.filter_nil]
    · have hne := splitOn_ne_nil separator rest
      cases hrest : splitOn separator rest with
      | nil => exact absurd hrest hne
      | cons first others =>
        rw [hrest, List.map_cons] at ih
        cases hkept : keep c with
        | true => simp [splitOn, hc, hkept, ih, hrest]
        | false => simp [splitOn, hc, hkept, ih, hrest]

/-- In a text of parts with a separator, each part is joined to what follows. -/
lemma joinWith_cons (separator part : List Char) (parts : List (List Char)) :
    joinWith separator (part :: parts) = part ++ parts.flatMap (separator ++ ·) := by
  induction parts generalizing part with
  | nil => simp [joinWith]
  | cons next parts ih =>
    rw [joinWith, ih, List.flatMap_cons, List.append_assoc, List.append_assoc]
    simp

lemma mem_joinWith {c : Char} (hc : c ∈ joinWith [separator] parts) :
    c = separator ∨ ∃ part ∈ parts, c ∈ part := by
  cases parts with
  | nil => contradiction
  | cons part parts =>
    rw [joinWith_cons, List.mem_append, List.mem_flatMap] at hc
    rcases hc with hc | ⟨other, hother, hc⟩
    · exact .inr ⟨part, by simp, hc⟩
    · rw [List.mem_append, List.mem_singleton] at hc
      rcases hc with hc | hc
      · exact .inl hc
      · exact .inr ⟨other, List.mem_cons_of_mem part hother, hc⟩

lemma joinWith_ne_nil (separator : List Char) (hparts : ∀ part ∈ parts, part ≠ [])
    (hne : parts ≠ []) : joinWith separator parts ≠ [] := by
  obtain ⟨part, others, rfl⟩ := List.exists_cons_of_ne_nil hne
  rw [joinWith_cons]
  exact List.append_ne_nil_of_left_ne_nil (hparts part (by simp)) _

/-- A text of parts that are not empty ends as one of them does. -/
lemma mem_getLast?_joinWith {separator : List Char} {c : Char} (hparts : ∀ part ∈ parts, part ≠ [])
    (hc : c ∈ (joinWith separator parts).getLast?) : ∃ part ∈ parts, c ∈ part.getLast? := by
  fun_induction joinWith separator parts with
  | case1 => contradiction
  | case2 part => exact ⟨part, by simp, hc⟩
  | case3 part parts hne ih =>
    have hothers := (List.forall_mem_cons.1 hparts).2
    rw [List.getLast?_append_of_ne_nil _ (joinWith_ne_nil separator hothers hne)] at hc
    obtain ⟨other, hother, hc⟩ := ih hothers hc
    exact ⟨other, List.mem_cons_of_mem part hother, hc⟩

/-- The part before the first separator is unique. -/
lemma eq_of_append_cons_eq {part' rest rest' : List Char} (hpart : separator ∉ part)
    (hpart' : separator ∉ part')
    (heq : part ++ separator :: rest = part' ++ separator :: rest') : part = part' := by
  have hsplit := congrArg (splitOn separator) heq
  rw [splitOn_append_cons rest hpart, splitOn_append_cons rest' hpart'] at hsplit
  exact (List.cons.inj hsplit).1

/-! ## Trimming -/

lemma trim_eq_rdropWhile (text : List Char) :
    trim text = (text.dropWhile isBlank).rdropWhile isBlank := rfl

lemma mem_of_mem_trim {c : Char} (hc : c ∈ trim text) : c ∈ text := by
  rw [trim_eq_rdropWhile] at hc
  have hdrop := (List.rdropWhile_prefix isBlank (text.dropWhile isBlank)).subset hc
  exact (List.dropWhile_sublist isBlank).subset hdrop

/-- A trimmed text does not begin with a blank. -/
lemma isBlank_head_trim {c : Char} (hc : c ∈ (trim text).head?) : isBlank c = false := by
  obtain ⟨rest, hrest⟩ := List.head?_eq_some_iff.1 hc
  obtain ⟨dropped, hdropped⟩ := List.rdropWhile_prefix isBlank (text.dropWhile isBlank)
  rw [← trim_eq_rdropWhile, hrest, List.cons_append] at hdropped
  have hhead : (text.dropWhile isBlank).head? = some c := by rw [← hdropped, List.head?_cons]
  simpa [hhead] using List.head?_dropWhile_not isBlank text

lemma isBlank_getLast_trim {c : Char} (hc : c ∈ (trim text).getLast?) : isBlank c = false := by
  rw [trim, List.getLast?_reverse] at hc
  have hlast := List.head?_dropWhile_not isBlank (text.dropWhile isBlank).reverse
  simpa [Option.mem_def.1 hc] using hlast

lemma dropWhile_eq_self {keep : Char → Bool} (hhead : ∀ c ∈ text.head?, keep c = false) :
    text.dropWhile keep = text := by
  cases text with
  | nil => rfl
  | cons c rest => rw [List.dropWhile_cons_of_neg (by simp [hhead c rfl])]

lemma trim_eq_self (hhead : ∀ c ∈ text.head?, isBlank c = false)
    (hlast : ∀ c ∈ text.getLast?, isBlank c = false) : trim text = text := by
  rw [trim, dropWhile_eq_self hhead, dropWhile_eq_self, List.reverse_reverse]
  rwa [List.head?_reverse]

end Text

/-! ## Relevant lines -/

namespace Grammar

variable {line text : List Char} {lines : List (List Char)}

/-- A line that counts as it is. -/
structure Tidy (line : List Char) : Prop where
  ne_nil : line ≠ []
  unbroken : '\n' ∉ line
  uncommented : '#' ∉ line
  head : ∀ c ∈ line.head?, Text.isBlank c = false
  last : ∀ c ∈ line.getLast?, Text.isBlank c = false

lemma tidy_of_mem_relevantLines (hline : line ∈ relevantLines text) : Tidy line := by
  obtain ⟨hline, hne⟩ := List.mem_filter.1 hline
  obtain ⟨whole, hwhole, rfl⟩ := List.mem_map.1 hline
  have hsub : ∀ c ∈ Text.trim (whole.takeWhile (· != '#')), c ∈ whole ∧ c ≠ '#' := by
    intro c hc
    have hcut := Text.mem_of_mem_trim hc
    exact ⟨(List.takeWhile_sublist _).subset hcut, by simpa using List.mem_takeWhile_imp hcut⟩
  refine ⟨by simpa using hne, fun hmem => ?_, fun hmem => ?_,
    fun c hc => Text.isBlank_head_trim hc, fun c hc => Text.isBlank_getLast_trim hc⟩
  · exact Text.not_mem_of_mem_splitOn hwhole (hsub _ hmem).1
  · exact (hsub _ hmem).2 rfl

/-- The text of some lines, each ended by a line break. -/
def unlines (lines : List (List Char)) : List Char := lines.flatMap fun line => line ++ ['\n']

lemma unlines_cons (line : List Char) (lines : List (List Char)) :
    unlines (line :: lines) = line ++ '\n' :: unlines lines := by
  simp [unlines]

lemma splitOn_unlines (hlines : ∀ line ∈ lines, '\n' ∉ line) :
    Text.splitOn '\n' (unlines lines) = lines ++ [[]] := by
  induction lines with
  | nil => rfl
  | cons line lines ih =>
    rw [unlines_cons, Text.splitOn_append_cons _ (hlines line (by simp)),
      ih fun l hl => hlines l (List.mem_cons_of_mem _ hl), List.cons_append]

/-- Tidy lines are the relevant lines of the text they make. -/
theorem relevantLines_unlines (hlines : ∀ line ∈ lines, Tidy line) :
    relevantLines (unlines lines) = lines := by
  have hkept : ∀ line ∈ lines, Text.trim (line.takeWhile (· != '#')) = line := by
    intro line hline
    have hcut : line.takeWhile (· != '#') = line := by
      refine List.takeWhile_eq_self_iff.2 fun c hc => ?_
      rw [bne_iff_ne]
      rintro rfl
      exact (hlines line hline).uncommented hc
    rw [hcut]
    exact Text.trim_eq_self (hlines line hline).head (hlines line hline).last
  rw [relevantLines, splitOn_unlines fun line hline => (hlines line hline).unbroken,
    List.map_append, List.map_congr_left hkept, List.map_id', List.filter_append]
  have hfilter : lines.filter (fun line => !line.isEmpty) = lines := by
    refine List.filter_eq_self.2 fun line hline => ?_
    simpa using (hlines line hline).ne_nil
  rw [hfilter]
  simp [Text.trim]

end Grammar

end ContextFree
