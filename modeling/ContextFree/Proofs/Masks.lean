import ContextFree.Proofs.EpsilonFree
import Mathlib.Data.Finset.Sort
import Mathlib.Data.List.Sublists

/-!
# Counting with masks

The subsets of a list can be counted: a mask picks the members at the places where it has a bit,
and the masks go from one up to the power of two that the length of the list gives. A mask has 64
bits, the highest of which is the sign. So the bound is a positive number only for lists of at most
62 members, and these get all their subsets (`Mask.cons_subsets`). For a list of 63 members it is
the least of all numbers, for a longer one it is zero, and nothing is counted at all
(`Mask.subsets_eq_nil`).

The markings of a body that are considered are those that masks give to its erasable places
(`Marking.choices_eq`), hence the capacity. The main result, `Marking.erasures_complete_iff`, says
that the erasures of a body are complete within it, and that there are none beyond it.
-/

namespace ContextFree

/-- A number of 64 bits, of which the highest is the sign. -/
abbrev Mask := BitVec 64

namespace Mask

variable {α : Type} {l s : List α} {mask bound : Mask} {k n : Nat}

/-- The mask with one bit. If its place is beyond the width, there is no bit at all. -/
def single (place : Nat) : Mask := 1#64 <<< place

/-- There is a next number below a bound, or it is the bound. -/
lemma toInt_add_one (h : mask.slt bound = true) : (mask + 1).toInt = mask.toInt + 1 := by
  rw [BitVec.slt_iff_toInt_lt] at h
  have hbound : bound.toInt < 2 ^ 63 := BitVec.toInt_lt
  have hmask : -2 ^ 63 ≤ mask.toInt := BitVec.le_toInt mask
  have hone : (1 : Mask).toInt = 1 := by decide
  rw [BitVec.toInt_add, hone]
  exact Int.bmod_eq_of_le (by omega) (by omega)

/-- Counts up from a mask as long as a bound is not reached. -/
def countTo (bound mask : Mask) : List Mask :=
  if mask.slt bound then mask :: countTo bound (mask + 1) else []
termination_by (bound.toInt - mask.toInt).toNat
decreasing_by
  rename_i h
  have hnext := toInt_add_one h
  have hlt := BitVec.slt_iff_toInt_lt.1 h
  omega

/-- The members of a list at the places where the mask has a bit. -/
def pick (mask : Mask) (l : List α) : List α :=
  (l.zipIdx.filter fun x => mask &&& single x.2 != 0).map Prod.fst

/-- What the masks pick from a list, from the mask one up to that of the first place behind the
list. -/
def subsets (l : List α) : List (List α) :=
  (countTo (single l.length) 1).map fun mask => pick mask l

/-! ## The bound -/

lemma single_eq_ofNat (place : Nat) : single place = BitVec.ofNat 64 (2 ^ place) := by
  rw [single, ← BitVec.twoPow_eq]
  apply BitVec.eq_of_toNat_eq
  rw [BitVec.toNat_twoPow, BitVec.toNat_ofNat]

lemma toInt_ofNat_of_lt (hn : n < 2 ^ 63) : (BitVec.ofNat 64 n).toInt = n := by
  have htoNat : (BitVec.ofNat 64 n).toNat = n := by
    rw [BitVec.toNat_ofNat, Nat.mod_eq_of_lt (by omega)]
  rw [BitVec.toInt_eq_toNat_of_lt, htoNat]
  rw [htoNat]
  omega

/-- Beyond the capacity the bound is not positive. -/
lemma toInt_single_nonpos (hn : Marking.capacity < n) : (single n).toInt ≤ 0 := by
  unfold Marking.capacity at hn
  rw [single, ← BitVec.twoPow_eq, BitVec.toInt_twoPow]
  split
  · exact Int.le_refl 0
  · -- the only place within the width is that of the sign
    rw [if_pos (by omega)]
    exact Int.neg_nonpos_of_nonneg (Int.natCast_nonneg _)

/-! ## Counting -/

/-- As long as the sign is not touched, counting meets every number below the bound. -/
lemma countTo_ofNat (h : k + n < 2 ^ 63) :
    countTo (BitVec.ofNat 64 (k + n)) (BitVec.ofNat 64 k) =
      (List.range' k n).map (BitVec.ofNat 64) := by
  induction n generalizing k with
  | zero =>
    rw [countTo, if_neg (by simp [BitVec.slt_iff_toInt_lt])]
    rfl
  | succ n ih =>
    have hlt : (BitVec.ofNat 64 k).slt (BitVec.ofNat 64 (k + (n + 1))) = true := by
      rw [BitVec.slt_iff_toInt_lt, toInt_ofNat_of_lt (by omega), toInt_ofNat_of_lt h]
      omega
    have hnext : BitVec.ofNat 64 k + 1 = BitVec.ofNat 64 (k + 1) := (BitVec.ofNat_add k 1).symm
    rw [countTo, if_pos hlt, hnext, Nat.add_left_comm k n 1, Nat.add_comm n, ih (by omega)]
    rfl

lemma countTo_single (hn : n ≤ Marking.capacity) :
    countTo (single n) 1 = (List.range' 1 (2 ^ n - 1)).map (BitVec.ofNat 64) := by
  have hpos : 1 ≤ 2 ^ n := Nat.one_le_two_pow
  have hle : 2 ^ n ≤ 2 ^ 62 := Nat.pow_le_pow_right (by decide) hn
  have hbound : single n = BitVec.ofNat 64 (1 + (2 ^ n - 1)) := by
    rw [single_eq_ofNat, Nat.add_sub_cancel' hpos]
  rw [hbound]
  exact countTo_ofNat (by omega)

lemma countTo_single_eq_nil (hn : Marking.capacity < n) : countTo (single n) 1 = [] := by
  have hone : (1 : Mask).toInt = 1 := by decide
  have hbound := toInt_single_nonpos hn
  rw [countTo, if_neg]
  rw [BitVec.slt_iff_toInt_lt]
  omega

/-! ## Picking -/

lemma single_ne_zero (hn : n < 64) : single n ≠ 0 := by
  intro hzero
  have hpow : 2 ^ n < 2 ^ 64 := Nat.pow_lt_pow_right (by decide) hn
  have htoNat : (single n).toNat = 2 ^ n := by
    rw [single_eq_ofNat, BitVec.toNat_ofNat, Nat.mod_eq_of_lt hpow]
  rw [hzero] at htoNat
  exact absurd htoNat.symm (Nat.pow_pos (by decide)).ne'

/-- A single bit meets a mask where that has a bit. -/
lemma and_single (mask : Mask) (place : Nat) :
    (mask &&& single place != 0) = mask.getLsbD place := by
  have hand : mask &&& single place = if mask.getLsbD place then single place else 0 := by
    rw [single, ← BitVec.twoPow_eq]
    exact BitVec.and_twoPow mask place
  rw [hand]
  split
  · rename_i hbit
    rw [hbit, bne_iff_ne]
    exact single_ne_zero (BitVec.lt_of_getLsbD hbit)
  · rename_i hbit
    rw [Bool.not_eq_true] at hbit
    rw [hbit, bne_self_eq_false]

/-- The lowest bit is for the first member, and the other bits move down by one. -/
lemma pick_cons (mask : Mask) (a : α) (l : List α) :
    pick mask (a :: l) =
      if mask.getLsbD 0 then a :: pick (mask >>> 1) l else pick (mask >>> 1) l := by
  have hrest : ((l.zipIdx 1).filter fun x => mask &&& single x.2 != 0).map Prod.fst =
      pick (mask >>> 1) l := by
    unfold pick
    rw [show 1 = 0 + 1 from rfl, List.zipIdx_succ, List.filter_map, List.map_map]
    simp only [Function.comp_def, and_single, BitVec.getLsbD_ushiftRight, Nat.add_comm 1]
  rw [pick, List.zipIdx_cons, List.filter_cons, and_single]
  cases mask.getLsbD 0 with
  | false => exact hrest
  | true => exact congrArg (a :: ·) hrest

/-- A further digit of the number decides on a further member. -/
lemma pick_ofNat_digit (hk : k < 2 ^ 63) (digit : Bool) (a : α) (l : List α) :
    pick (BitVec.ofNat 64 (2 * k + digit.toNat)) (a :: l) =
      if digit then a :: pick (BitVec.ofNat 64 k) l else pick (BitVec.ofNat 64 k) l := by
  have hdigit : digit.toNat < 2 := digit.toNat_lt
  have hlow : (BitVec.ofNat 64 (2 * k + digit.toNat)).getLsbD 0 = digit := by
    rw [BitVec.getLsbD_ofNat, Nat.testBit_zero]
    cases digit <;> simp
  have hshift : BitVec.ofNat 64 (2 * k + digit.toNat) >>> 1 = BitVec.ofNat 64 k := by
    apply BitVec.eq_of_toNat_eq
    simp only [BitVec.toNat_ushiftRight, BitVec.toNat_ofNat, Nat.shiftRight_one]
    omega
  rw [pick_cons, hlow, hshift]

lemma range_double (n : Nat) :
    List.range (2 * n) = (List.range n).flatMap fun k => [2 * k, 2 * k + 1] := by
  induction n with
  | zero => rfl
  | succ n ih => simp [Nat.mul_add, List.range_succ, ih]

/-- All numbers together pick all sublists, in the order in which these are listed. -/
lemma map_pick_range (hl : l.length ≤ 63) :
    (List.range (2 ^ l.length)).map (fun k => pick (BitVec.ofNat 64 k) l) = l.sublists := by
  induction l with
  | nil => rfl
  | cons a l ih =>
    rw [List.length_cons] at hl
    have hpow : 2 ^ l.length ≤ 2 ^ 63 := Nat.pow_le_pow_right (by decide) (by omega)
    rw [List.sublists_cons, ← ih (by omega), List.length_cons, Nat.pow_succ', range_double,
      List.map_flatMap, List.bind_eq_flatMap, List.flatMap_map]
    apply List.flatMap_congr
    intro k hk
    have hlt : k < 2 ^ 63 := by
      have := List.mem_range.1 hk
      omega
    have heven := pick_ofNat_digit hlt false a l
    have hodd := pick_ofNat_digit hlt true a l
    simp only [List.map_cons, List.map_nil]
    exact congrArg₂ (fun u v => [u, v]) heven hodd

/-! ## Subsets -/

/-- Within the capacity, the empty sublist is the only one that is not picked. -/
theorem cons_subsets (hl : l.length ≤ Marking.capacity) : [] :: subsets l = l.sublists := by
  have hpow : 2 ^ l.length = (2 ^ l.length - 1) + 1 :=
    (Nat.sub_add_cancel Nat.one_le_two_pow).symm
  have hzero : pick (BitVec.ofNat 64 0) l = [] := by simp [pick]
  rw [← map_pick_range (hl.trans (by decide)), List.range_eq_range', hpow, List.range'_succ,
    List.map_cons, hzero, subsets, countTo_single hl, List.map_map]
  rfl

/-- Beyond the capacity, nothing is picked. -/
theorem subsets_eq_nil (hl : Marking.capacity < l.length) : subsets l = [] := by
  rw [subsets, countTo_single_eq_nil hl, List.map_nil]

/-- Whatever the capacity, what is picked is not empty and stands in the order of the list. -/
lemma of_mem_subsets (hl : l.Nodup) (hs : s ∈ subsets l) : s ≠ [] ∧ s.Sublist l := by
  by_cases hcap : l.length ≤ Marking.capacity
  · have hall := cons_subsets hcap
    have hdistinct : ([] :: subsets l).Nodup := hall ▸ List.nodup_sublists.2 hl
    have hmem : s ∈ l.sublists := hall ▸ List.mem_cons_of_mem _ hs
    refine ⟨?_, List.mem_sublists.1 hmem⟩
    rintro rfl
    exact (List.nodup_cons.1 hdistinct).1 hs
  · rw [subsets_eq_nil (Nat.lt_of_not_le hcap)] at hs
    exact absurd hs List.not_mem_nil

lemma mem_subsets (hcap : l.length ≤ Marking.capacity) (hne : s ≠ []) (hs : s.Sublist l) :
    s ∈ subsets l := by
  have hmem : s ∈ [] :: subsets l := cons_subsets hcap ▸ List.mem_sublists.2 hs
  exact (List.mem_cons.1 hmem).resolve_left hne

/-- The list holds the subsets of some places that are not empty, each of them once and in ascending
order. -/
structure ListsSubsets [LT α] (places : List α) (subsets : List (List α)) : Prop where
  nodup : subsets.Nodup
  mem_iff : ∀ s, s ∈ subsets ↔ s ≠ [] ∧ s.Pairwise (· < ·) ∧ s ⊆ places

variable [LinearOrder α] {places : List α}

/-- Among ascending places, the ascending choices are the sublists. -/
lemma sublist_iff_of_ascending (hplaces : places.Pairwise (· < ·)) :
    s.Sublist places ↔ s.Pairwise (· < ·) ∧ s ⊆ places := by
  constructor
  · intro hs
    exact ⟨hplaces.sublist hs, hs.subset⟩
  · rintro ⟨hs, hsub⟩
    have hdistinct : s.Nodup := hs.imp ne_of_lt
    exact List.sublist_of_subperm_of_pairwise (hdistinct.subperm hsub)
      (hs.imp le_of_lt) (hplaces.imp le_of_lt)

/-- The masks list the subsets of ascending places exactly up to the capacity. -/
theorem listsSubsets_iff (hplaces : places.Pairwise (· < ·)) :
    ListsSubsets places (subsets places) ↔ places.length ≤ Marking.capacity := by
  have hdistinct : places.Nodup := hplaces.imp ne_of_lt
  constructor
  · intro hlists
    by_contra hcap
    have hlong : Marking.capacity < places.length := Nat.lt_of_not_le hcap
    have hne : places ≠ [] := List.ne_nil_of_length_pos (Nat.zero_lt_of_lt hlong)
    -- of all subsets, that of all places is missing
    have hmem := (hlists.mem_iff places).2 ⟨hne, hplaces, List.Subset.refl _⟩
    rw [subsets_eq_nil hlong] at hmem
    exact List.not_mem_nil hmem
  · intro hcap
    refine ⟨?_, fun s => ?_⟩
    · have hall : ([] :: subsets places).Nodup :=
        cons_subsets hcap ▸ List.nodup_sublists.2 hdistinct
      exact (List.nodup_cons.1 hall).2
    · rw [← sublist_iff_of_ascending hplaces]
      exact ⟨of_mem_subsets hdistinct, fun hs => mem_subsets hcap hs.1 hs.2⟩

end Mask

/-! ## Leaving symbols out -/

/-- What is left of a form, whose symbols are counted from `i` on, without those at ascending
places. -/
def Form.without (i : Nat) : List Nat → Form → Form
  | [], form => form
  | _ :: _, [] => []
  | place :: places, s :: form =>
    if place = i then without (i + 1) places form
    else s :: without (i + 1) (place :: places) form

namespace Marking

variable {erasable : Symbol → Bool} {body form : Form} {i : Nat} {places : List Nat}

/-- The marking of a body, whose symbols are counted from `i` on, that leaves out those at the given
places. -/
def leaveOut (i : Nat) (body : Form) (places : List Nat) : Marking :=
  (body.zipIdx i).map fun x => ⟨x.1, decide (x.2 ∈ places)⟩

lemma leaveOut_nil (i : Nat) (body : Form) : leaveOut i body [] = whole body := by
  rw [leaveOut, whole]
  conv_rhs => rw [← List.zipIdx_map_fst i body, List.map_map]
  simp [Function.comp_def]

lemma leaveOut_cons (s : Symbol) :
    leaveOut i (s :: body) places = ⟨s, decide (i ∈ places)⟩ :: leaveOut (i + 1) body places := by
  rw [leaveOut, List.zipIdx_cons, List.map_cons]
  rfl

/-- A place before the first symbol does not matter. -/
lemma leaveOut_succ_cons : leaveOut (i + 1) body (i :: places) = leaveOut (i + 1) body places := by
  unfold leaveOut
  apply List.map_congr_left
  intro x hx
  have hne : x.2 ≠ i := by
    have := List.le_snd_of_mem_zipIdx hx
    omega
  simp [hne]

lemma kept_leaveOut :
    kept (leaveOut i body places) =
      ((body.zipIdx i).filter fun x => x.2 ∉ places).map Prod.fst := by
  simp [kept, leaveOut, List.filter_map, Function.comp_def]

/-- Going through the symbols and the places side by side leaves what the marking keeps. -/
lemma without_eq (hplaces : places.Pairwise (· < ·)) (hle : ∀ p ∈ places, i ≤ p) :
    Form.without i places form = kept (leaveOut i form places) := by
  fun_induction Form.without i places form with
  | case1 i form => rw [leaveOut_nil, kept_whole]
  | case2 => rfl
  | case3 i places s form ih =>
    obtain ⟨hfirst, hrest⟩ := List.pairwise_cons.1 hplaces
    rw [ih hrest hfirst, leaveOut_cons, leaveOut_succ_cons, kept_cons_of_erased (by simp)]
  | case4 i place places s form hne ih =>
    obtain ⟨hfirst, hrest⟩ := List.pairwise_cons.1 hplaces
    -- the first place is still to come, and so are the others
    have hlt : ∀ p ∈ place :: places, i < p := by
      intro p hp
      have hplace : i ≤ place := hle place List.mem_cons_self
      rcases List.mem_cons.1 hp with rfl | hp
      · omega
      · have := hfirst p hp
        omega
    have hi : i ∉ place :: places := fun hi => Nat.lt_irrefl i (hlt i hi)
    rw [ih hplaces hlt, leaveOut_cons, kept_cons_of_not_erased (decide_eq_false hi)]

/-! ## Markings by masks -/

/-- The markings of a body are listed in the order of the sublists of its erasable places. -/
lemma enumerate_eq (erasable : Symbol → Bool) (body : Form) (i : Nat) :
    enumerate erasable body = (body.findIdxs erasable i).sublists.map (leaveOut i body) := by
  induction body generalizing i with
  | nil => rfl
  | cons s body ih =>
    have hnot : ∀ places ∈ (body.findIdxs erasable (i + 1)).sublists, i ∉ places := by
      intro places hplaces hi
      have hmem := (List.mem_sublists.1 hplaces).subset hi
      have := List.ge_of_mem_findIdxs _ hmem
      omega
    rw [enumerate, ih (i + 1), List.flatMap_map, List.findIdxs_cons]
    split
    · rw [List.sublists_cons, List.bind_eq_flatMap, List.map_flatMap]
      apply List.flatMap_congr
      intro places hplaces
      simp [leaveOut_cons, leaveOut_succ_cons, hnot places hplaces]
    · rw [List.map_eq_flatMap]
      apply List.flatMap_congr
      intro places hplaces
      simp [leaveOut_cons, hnot places hplaces]

/-- The markings that are considered are the one that keeps all and those that masks give. -/
theorem choices_eq (erasable : Symbol → Bool) (body : Form) :
    choices erasable body =
      ([] :: Mask.subsets (body.findIdxs erasable)).map (leaveOut 0 body) := by
  unfold choices
  split
  · rename_i hcap
    rw [Mask.cons_subsets (by rwa [List.length_findIdxs]), ← enumerate_eq]
  · rename_i hcap
    rw [Mask.subsets_eq_nil (by rwa [List.length_findIdxs, ← Nat.not_le]), List.map_singleton,
      leaveOut_nil]

lemma any_erased_leaveOut (hne : places ≠ []) (hsub : places ⊆ body.findIdxs erasable) :
    (leaveOut 0 body places).any Mark.erased = true := by
  obtain ⟨place, hplace⟩ := List.exists_mem_of_ne_nil places hne
  obtain ⟨hlt, -⟩ := List.mem_findIdxs_iff_exists_getElem_pos.1 (hsub hplace)
  have hmem : (body[place], place) ∈ body.zipIdx :=
    List.mk_mem_zipIdx_iff_getElem?.2 (List.getElem?_eq_getElem hlt)
  exact List.any_eq_true.2 ⟨_, List.mem_map_of_mem hmem, decide_eq_true hplace⟩

/-- The erasures of a body are what is left of it without the places that masks pick. -/
theorem erasures_eq (erasable : Symbol → Bool) (body : Form) :
    erasures erasable body =
      ((Mask.subsets (body.findIdxs erasable)).map fun places =>
        Form.without 0 places body).eraseDups := by
  have hwhole : (whole body).any Mark.erased = false := by simp [whole]
  have hmarked : ∀ m ∈ (Mask.subsets (body.findIdxs erasable)).map (leaveOut 0 body),
      m.any Mark.erased = true := by
    intro m hm
    obtain ⟨places, hplaces, rfl⟩ := List.mem_map.1 hm
    obtain ⟨hne, hsub⟩ := Mask.of_mem_subsets List.nodup_findIdxs hplaces
    exact any_erased_leaveOut hne hsub.subset
  rw [erasures, choices_eq, List.map_cons, leaveOut_nil, List.filter_cons, hwhole,
    List.filter_eq_self.2 hmarked, if_neg Bool.false_ne_true, List.map_map]
  congr 1
  apply List.map_congr_left
  intro places hplaces
  have hsub := (Mask.of_mem_subsets List.nodup_findIdxs hplaces).2
  exact (without_eq (List.pairwise_findIdxs.sublist hsub) fun p _ => Nat.zero_le p).symm

/-! ## Main result -/

/-- The form is left of the body without the symbols at some places. There is at least one such
place, and all these symbols are erasable. -/
def IsErasure (erasable : Symbol → Bool) (body form : Form) : Prop :=
  ∃ gone : Finset Nat, gone.Nonempty ∧
    (∀ place ∈ gone, ∃ s, body[place]? = some s ∧ erasable s = true) ∧
    form = (body.zipIdx.filter fun x => x.2 ∉ gone).map Prod.fst

lemma mem_findIdxs_iff {place : Nat} :
    place ∈ body.findIdxs erasable ↔ ∃ s, body[place]? = some s ∧ erasable s = true := by
  rw [List.mem_findIdxs_iff_exists_getElem_pos]
  constructor
  · rintro ⟨hlt, hs⟩
    exact ⟨_, List.getElem?_eq_getElem hlt, hs⟩
  · rintro ⟨s, hs, herasable⟩
    obtain ⟨hlt, rfl⟩ := List.getElem?_eq_some_iff.1 hs
    exact ⟨hlt, herasable⟩

/-- The places may be given in ascending order. -/
lemma isErasure_iff :
    IsErasure erasable body form ↔
      ∃ places : List Nat, places ≠ [] ∧ places.Sublist (body.findIdxs erasable) ∧
        Form.without 0 places body = form := by
  have hascending : (body.findIdxs erasable).Pairwise (· < ·) := List.pairwise_findIdxs
  constructor
  · rintro ⟨gone, ⟨place, hplace⟩, hgone, rfl⟩
    have hsorted : gone.sort.Pairwise (· < ·) := (Finset.sortedLT_sort gone).pairwise
    refine ⟨gone.sort, List.ne_nil_of_mem ((Finset.mem_sort (· ≤ ·)).2 hplace), ?_, ?_⟩
    · rw [Mask.sublist_iff_of_ascending hascending]
      refine ⟨hsorted, fun p hp => mem_findIdxs_iff.2 (hgone p ?_)⟩
      exact (Finset.mem_sort (· ≤ ·)).1 hp
    · rw [without_eq hsorted fun p _ => Nat.zero_le p, kept_leaveOut]
      simp only [Finset.mem_sort]
  · rintro ⟨places, hne, hsub, rfl⟩
    obtain ⟨place, hplace⟩ := List.exists_mem_of_ne_nil places hne
    refine ⟨places.toFinset, ⟨place, List.mem_toFinset.2 hplace⟩, fun p hp => ?_, ?_⟩
    · exact mem_findIdxs_iff.1 (hsub.subset (List.mem_toFinset.1 hp))
    · rw [without_eq (hascending.sublist hsub) fun p _ => Nat.zero_le p, kept_leaveOut]
      simp only [List.mem_toFinset]

lemma mem_erasures_iff (hcap : body.countP erasable ≤ capacity) :
    form ∈ erasures erasable body ↔ IsErasure erasable body form := by
  have hlength : (body.findIdxs erasable).length ≤ capacity := by rwa [List.length_findIdxs]
  rw [erasures_eq, List.mem_eraseDups, List.mem_map, isErasure_iff]
  constructor
  · rintro ⟨places, hplaces, rfl⟩
    obtain ⟨hne, hsub⟩ := Mask.of_mem_subsets List.nodup_findIdxs hplaces
    exact ⟨places, hne, hsub, rfl⟩
  · rintro ⟨places, hne, hsub, rfl⟩
    exact ⟨places, Mask.mem_subsets hlength hne hsub, rfl⟩

lemma erasures_eq_nil (hcap : capacity < body.countP erasable) : erasures erasable body = [] := by
  have hlength : capacity < (body.findIdxs erasable).length := by rwa [List.length_findIdxs]
  rw [erasures_eq, Mask.subsets_eq_nil hlength]
  rfl

/-- A body with an erasable symbol has an erasure. -/
lemma exists_isErasure (hpos : 0 < body.countP erasable) :
    ∃ form, IsErasure erasable body form := by
  have hne : body.findIdxs erasable ≠ [] := by
    apply List.ne_nil_of_length_pos
    rwa [List.length_findIdxs]
  exact ⟨_, isErasure_iff.2 ⟨_, hne, List.Sublist.refl _, rfl⟩⟩

/-- The erasures of a body are complete exactly if no more of its symbols are erasable than the
capacity allows for, and otherwise there are none. The same holds of the subsets of ascending places
that are counted with masks, each subset in ascending order and only once. The erasures are what is
left of the body without these subsets of its erasable places. -/
theorem erasures_complete_iff (erasable : Symbol → Bool) (body : Form) {α : Type} [LinearOrder α]
    {places : List α} (hplaces : places.Pairwise (· < ·)) :
    ((∀ form, form ∈ erasures erasable body ↔ IsErasure erasable body form) ↔
      body.countP erasable ≤ capacity) ∧
    (capacity < body.countP erasable → erasures erasable body = []) ∧
    (Mask.ListsSubsets places (Mask.subsets places) ↔ places.length ≤ capacity) ∧
    (capacity < places.length → Mask.subsets places = []) ∧
    erasures erasable body =
      ((Mask.subsets (body.findIdxs erasable)).map fun gone =>
        Form.without 0 gone body).eraseDups := by
  refine ⟨⟨fun hall => ?_, fun hcap form => mem_erasures_iff hcap⟩, erasures_eq_nil,
    Mask.listsSubsets_iff hplaces, Mask.subsets_eq_nil, erasures_eq erasable body⟩
  by_contra hcap
  have hlong : capacity < body.countP erasable := Nat.lt_of_not_le hcap
  obtain ⟨form, hform⟩ := exists_isErasure (Nat.zero_lt_of_lt hlong)
  have hmem := (hall form).2 hform
  rw [erasures_eq_nil hlong] at hmem
  exact List.not_mem_nil hmem

/-- With 62 erasable symbols, and 62 places, nothing is missing yet. -/
theorem erasures_complete_brimming :
    (List.range 62).Pairwise (· < ·) ∧
      (∀ form, form ∈ erasures (· == 'A') ('b' :: List.replicate 62 'A') ↔
        IsErasure (· == 'A') ('b' :: List.replicate 62 'A') form) ∧
      Mask.ListsSubsets (List.range 62) (Mask.subsets (List.range 62)) := by
  have hplaces : (List.range 62).Pairwise (· < ·) := List.pairwise_lt_range
  obtain ⟨hall, -, hlists, -, -⟩ :=
    erasures_complete_iff (· == 'A') ('b' :: List.replicate 62 'A') hplaces
  exact ⟨hplaces, hall.2 (by decide), hlists.2 (by decide)⟩

end Marking

/-! ## Beyond the capacity -/

namespace Grammar

/-- A grammar with a body of 63 symbols that vanish, one more than the capacity. -/
def packed : Grammar :=
  ⟨'S', .ofList [⟨'S', List.replicate 63 'A'⟩, ⟨'A', ['a']⟩, ⟨'A', []⟩]⟩

/-- It without empty bodies. No symbol was left out of the long body. -/
def stiffened : Grammar :=
  ⟨'S', .ofList [⟨'S', []⟩, ⟨'S', List.replicate 63 'A'⟩, ⟨'A', ['a']⟩]⟩

lemma built_packed : packed.Built :=
  @Built.rules _ 'S' [('S', [List.replicate 63 'A']), ('A', [['a'], []])] (by decide +kernel)

lemma eliminateEpsilon_packed : packed.eliminateEpsilon.value = .ok stiffened := by
  decide +kernel

lemma inLanguage_packed : packed.InLanguage ['a'] := by
  have hempty : packed.Yields ['A'] [] := .of_body (by simp [packed]) .nil
  have hletter : packed.Yields ['A'] ['a'] :=
    .of_body (by simp [packed]) (.terminal (by decide) .nil)
  have hrest : packed.Yields (List.replicate 62 'A') [] := by
    rw [yields_nil_right_iff]
    intro s hs
    rwa [List.eq_of_mem_replicate hs]
  exact inLanguage_iff_yields.2 (.of_body (by simp [packed]) (hletter.append hrest))

/-- Symbols with words of one letter only are read as words of their number. -/
lemma length_of_reads_replicate {L : Symbol → Form → Prop} {a : Symbol}
    (hL : ∀ x, L a x → x.length = 1) {n : Nat} {w : Form}
    (hw : Reads L (List.replicate n a) w) : w.length = n := by
  induction n generalizing w with
  | zero =>
    obtain rfl : w = [] := hw
    rfl
  | succ n ih =>
    obtain ⟨x, y, rfl, hx, hy⟩ := hw
    rw [List.length_append, hL x hx, ih hy, Nat.add_comm]

/-- No word of the start symbol of the result has a single letter: the long body yields 63. -/
lemma closed_stiffened :
    stiffened.Closed fun s w => if s = 'S' then w.length ≠ 1 else w.length = 1 := by
  refine ⟨fun s hs => ?_, fun p hp w hw => ?_⟩
  · have hne : s ≠ 'S' := by
      rintro rfl
      exact absurd hs (by decide)
    rw [if_neg hne]
    rfl
  · simp only [stiffened, SortedSet.mem_ofList, List.mem_cons, List.not_mem_nil, or_false] at hp
    rcases hp with rfl | rfl | rfl
    · obtain rfl : w = [] := hw
      exact Nat.zero_ne_one
    · have hlength : w.length = 63 := length_of_reads_replicate (fun _ hx => hx) hw
      rw [if_pos rfl, hlength]
      decide
    · exact reads_singleton_iff.1 hw

/-- Beyond the capacity there are neither all erasures nor all subsets. A word is lost with them:
the given grammar derives it, but what is left without empty bodies does not. -/
theorem erasures_incomplete_packed :
    (¬∀ (erasable : Symbol → Bool) (body form : Form),
      form ∈ Marking.erasures erasable body ↔ Marking.IsErasure erasable body form) ∧
    (¬∀ places : List Nat, places.Pairwise (· < ·) →
      Mask.ListsSubsets places (Mask.subsets places)) ∧
    packed.Built ∧ packed.eliminateEpsilon.value = .ok stiffened ∧
    packed.InLanguage ['a'] ∧ ¬stiffened.InLanguage ['a'] := by
  refine ⟨fun hall => ?_, fun hall => ?_, built_packed, eliminateEpsilon_packed,
    inLanguage_packed, fun hlost => ?_⟩
  · have hmany : Marking.capacity < (List.replicate 63 'A').countP (· == 'A') := by decide
    obtain ⟨form, hform⟩ := Marking.exists_isErasure (Nat.zero_lt_of_lt hmany)
    have hmem := (hall (· == 'A') (List.replicate 63 'A') form).2 hform
    rw [Marking.erasures_eq_nil hmany] at hmem
    exact List.not_mem_nil hmem
  · have hcap := (Mask.listsSubsets_iff List.pairwise_lt_range).1
      (hall (List.range 63) List.pairwise_lt_range)
    exact absurd hcap (by decide)
  · have hlength := reads_singleton_iff.1 ((inLanguage_iff_yields.1 hlost).reads closed_stiffened)
    exact absurd rfl hlength

end Grammar

end ContextFree
