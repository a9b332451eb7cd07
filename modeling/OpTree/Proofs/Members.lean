import OpTree.IdSet
import Mathlib.Algebra.BigOperators.Group.List.Basic
import Mathlib.Algebra.Order.Ring.Int
import Mathlib.Data.Finset.Sort

/-!
# Members of an id set

A set of ids is the finite set that the edits made to it describe: a question is about membership, a mark
tells whether the number was new, the size is the number of members, and a walk shows each of them once, in
increasing order, for as long as its visitor wants to see more.
-/

namespace OpTree

set_option autoImplicit false

namespace IdSet

universe u

variable {s t : IdSet} {m : Finset Nat} {n k : Nat} {w : UInt64}

/-! ## Bits and words -/

theorem getLsbD_mask (n k : Nat) : (mask n).toBitVec.getLsbD (k % 64) = decide (k % 64 = n % 64) := by
  have hlt : n % 64 < 64 := Nat.mod_lt n (by decide)
  rw [toBitVec_mask, BitVec.getLsbD_twoPow, decide_eq_true hlt, Bool.true_and]
  exact decide_eq_decide.mpr eq_comm

theorem contains_eq (s : IdSet) (n : Nat) : s.contains n = (s.word (n / 64)).toBitVec.getLsbD (n % 64) := by
  have hone : BitVec.twoPow 64 (n % 64) ≠ 0#64 := by
    intro h
    have hbit := getLsbD_mask n n
    rw [toBitVec_mask, h] at hbit
    simp at hbit
  have hzero : s.word (n / 64) &&& mask n = 0 ↔ ¬(s.word (n / 64)).toBitVec.getLsbD (n % 64) = true := by
    rw [← UInt64.toBitVec_inj, UInt64.toBitVec_and, toBitVec_mask, BitVec.and_twoPow]
    split
    · rename_i hbit
      simp [hbit, hone]
    · rename_i hbit
      simp [hbit]
  rw [Bool.eq_iff_iff, contains, bne_iff_ne, Ne, hzero, not_not]

theorem word_grow (s : IdSet) (i j : Nat) : (s.grow i).word j = s.word j := by
  simp only [word, grow, Array.getD_eq_getD_getElem?]
  by_cases hj : j < s.words.size
  · rw [Array.getElem?_append_left hj]
  · rw [Array.getElem?_append_right (by omega), Array.getElem?_replicate, Array.getElem?_eq_none (by omega)]
    split <;> rfl

theorem word_insert (s : IdSet) (n j : Nat) :
    (s.insert n).word j = if j = n / 64 then s.word j ||| mask n else s.word j := by
  have hlt : n / 64 < (s.grow (n / 64)).words.size := by
    simp only [grow, Array.size_append, Array.size_replicate]
    omega
  rw [← word_grow s (n / 64) j]
  simp only [word, insert, Array.getD_eq_getD_getElem?, Array.getElem?_modify]
  by_cases h : j = n / 64
  · rw [if_pos h.symm, if_pos h, h, Array.getElem?_eq_getElem hlt]
    rfl
  · rw [if_neg (Ne.symm h), if_neg h]

theorem word_erase (s : IdSet) (n j : Nat) :
    (s.erase n).word j = if j = n / 64 then s.word j &&& ~~~(mask n) else s.word j := by
  simp only [word, erase, Array.getD_eq_getD_getElem?, Array.getElem?_modify]
  by_cases h : j = n / 64
  · rw [if_pos h.symm, if_pos h]
    cases s.words[j]? with
    | none => simp
    | some w => rfl
  · rw [if_neg (Ne.symm h), if_neg h]

/-! ## Membership -/

theorem contains_insert_iff : (s.insert n).contains k = true ↔ k = n ∨ s.contains k = true := by
  rw [contains_eq, contains_eq, word_insert]
  split
  · rename_i hq
    rw [UInt64.toBitVec_or, BitVec.getLsbD_or, getLsbD_mask, Bool.or_eq_true, decide_eq_true_eq, or_comm]
    exact or_congr_left (by omega)
  · rename_i hq
    have hne : k ≠ n := by
      intro h
      exact hq (by rw [h])
    simp only [hne, false_or]

theorem contains_erase_iff : (s.erase n).contains k = true ↔ k ≠ n ∧ s.contains k = true := by
  rw [contains_eq, contains_eq, word_erase]
  split
  · rename_i hq
    have hlt : k % 64 < 64 := Nat.mod_lt k (by decide)
    rw [UInt64.toBitVec_and, UInt64.toBitVec_not, BitVec.getLsbD_and, BitVec.getLsbD_not, getLsbD_mask,
      decide_eq_true hlt, Bool.true_and, Bool.and_eq_true, Bool.not_eq_true', decide_eq_false_iff_not, and_comm]
    exact and_congr_left' (by omega)
  · rename_i hq
    have hne : k ≠ n := by
      intro h
      exact hq (by rw [h])
    simp only [hne, ne_eq, not_false_eq_true, true_and]

theorem contains_of_word (h : ∀ j, s.word j = 0) (n : Nat) : s.contains n = false := by
  rw [contains_eq, h]
  simp

theorem contains_empty (n : Nat) : empty.contains n = false :=
  contains_of_word (fun j => by simp [word, empty]) n

theorem contains_clear (s : IdSet) (n : Nat) : s.clear.contains n = false := by
  apply contains_of_word
  intro j
  simp only [word, clear, Array.getD_eq_getD_getElem?, Array.getElem?_map]
  cases s.words[j]? <;> rfl

theorem contains_withCapacity? {capacity : Int} (h : withCapacity? capacity = some s) (n : Nat) :
    s.contains n = false := by
  apply contains_of_word
  intro j
  simp only [withCapacity?] at h
  split at h
  · obtain rfl := Option.some.inj h
    simp only [word, Array.getD_eq_getD_getElem?, Array.getElem?_replicate]
    split <;> rfl
  · cases h

/-! ## Enumeration -/

def places (w : UInt64) : List Nat := (List.range 64).filter w.toBitVec.getLsbD

/-- The numbers that stand in some words, the first of which is word `i`. -/
def numbers : Nat → List UInt64 → List Nat
  | _, [] => []
  | i, w :: ws => (places w).map (i * 64 + ·) ++ numbers (i + 1) ws

/-- Shows a visitor the numbers of a list, one after the other, until it wants no more. -/
def offer {σ : Type u} (f : σ → Nat → σ × Bool) : σ → List Nat → σ × Bool
  | x, [] => (x, true)
  | x, n :: ns =>
    match f x n with
    | (y, true) => offer f y ns
    | (y, false) => (y, false)

theorem mem_places : n ∈ places w ↔ w.toBitVec.getLsbD n = true := by
  rw [places, List.mem_filter, List.mem_range, and_iff_right_iff_imp]
  intro h
  by_contra hn
  rw [BitVec.getLsbD_of_ge _ _ (Nat.le_of_not_lt hn)] at h
  cases h

theorem lt_of_mem_places (h : n ∈ places w) : n < 64 :=
  List.mem_range.mp (List.mem_of_mem_filter h)

theorem places_sorted (w : UInt64) : (places w).Pairwise (· < ·) := List.pairwise_lt_range.filter _

theorem places_zero : places 0 = [] := by
  apply List.eq_nil_iff_forall_not_mem.mpr
  intro n h
  simpa using mem_places.mp h

theorem places_of_ne_zero (h : w ≠ 0) : places w = lowest w :: places (rest w) := by
  -- Both lists are sorted, so it is enough that they have the same members.
  apply (places_sorted w).eq_of_mem_iff
  · refine List.pairwise_cons.mpr ⟨?_, places_sorted (rest w)⟩
    intro n hn
    rw [mem_places, getLsbD_rest h, Bool.and_eq_true, bne_iff_ne] at hn
    obtain ⟨hbit, hne⟩ := hn
    by_contra hle
    have hlt : n < lowest w := by omega
    rw [BitVec.getLsbD_false_of_lt_ctz hlt] at hbit
    cases hbit
  · intro n
    rw [List.mem_cons, mem_places, mem_places, getLsbD_rest h, Bool.and_eq_true, bne_iff_ne]
    by_cases e : n = lowest w
    · simp [e, getLsbD_lowest h]
    · simp [e]

theorem offer_append {σ : Type u} (f : σ → Nat → σ × Bool) (x : σ) (ns ks : List Nat) :
    offer f x (ns ++ ks) = match offer f x ns with
      | (y, true) => offer f y ks
      | (y, false) => (y, false) := by
  induction ns generalizing x with
  | nil => rfl
  | cons n ns ih =>
    simp only [List.cons_append, offer]
    match f x n with
    | (y, true) => exact ih y
    | (y, false) => rfl

theorem walkWord_eq {σ : Type u} (f : σ → Nat → σ × Bool) (i : Nat) (x : σ) (w : UInt64) :
    walkWord f i x w = offer f x ((places w).map (i * 64 + ·)) := by
  fun_induction walkWord f i x w with
  | case1 x => rw [places_zero, List.map_nil, offer]
  | case2 x w hw y hy ih => rw [places_of_ne_zero hw, List.map_cons, offer, hy, ih]
  | case3 x w hw y hy => rw [places_of_ne_zero hw, List.map_cons, offer, hy]

theorem walkWords_eq {σ : Type u} (f : σ → Nat → σ × Bool) (i : Nat) (x : σ) (ws : List UInt64) :
    walkWords f i x ws = offer f x (numbers i ws) := by
  induction ws generalizing i x with
  | nil => rfl
  | cons w ws ih =>
    rw [walkWords, numbers, offer_append, walkWord_eq]
    match offer f x ((places w).map (i * 64 + ·)) with
    | (y, true) => exact ih (i + 1) y
    | (y, false) => rfl

theorem offer_push (a : Array Nat) (ns : List Nat) :
    offer (fun ns n => (ns.push n, true)) a ns = (a ++ ns.toArray, true) := by
  induction ns generalizing a with
  | nil => simp [offer]
  | cons n ns ih => simp [offer, ih]

theorem toList_eq (s : IdSet) : s.toList = numbers 0 s.words.toList := by
  rw [toList, walk, walkWords_eq, offer_push]
  simp

theorem walk_eq {σ : Type u} (s : IdSet) (f : σ → Nat → σ × Bool) (x : σ) :
    s.walk f x = (offer f x s.toList).1 := by
  rw [walk, walkWords_eq, toList_eq]

theorem le_of_mem_numbers {i : Nat} {ws : List UInt64} (h : n ∈ numbers i ws) : i * 64 ≤ n := by
  induction ws generalizing i with
  | nil => cases h
  | cons w ws ih =>
    rcases List.mem_append.mp h with h | h
    · obtain ⟨k, -, rfl⟩ := List.mem_map.mp h
      exact Nat.le_add_right _ _
    · have := ih h
      omega

theorem numbers_sorted (i : Nat) (ws : List UInt64) : (numbers i ws).Pairwise (· < ·) := by
  induction ws generalizing i with
  | nil => exact List.Pairwise.nil
  | cons w ws ih =>
    refine List.pairwise_append.mpr ⟨?_, ih (i + 1), ?_⟩
    · rw [List.pairwise_map]
      apply (places_sorted w).imp
      intro a b hab
      omega
    · intro a ha b hb
      obtain ⟨k, hk, rfl⟩ := List.mem_map.mp ha
      have hlt := lt_of_mem_places hk
      have hle := le_of_mem_numbers hb
      omega

theorem mem_numbers (i n : Nat) (ws : List UInt64) :
    i * 64 + n ∈ numbers i ws ↔ (ws.getD (n / 64) 0).toBitVec.getLsbD (n % 64) = true := by
  induction ws generalizing i n with
  | nil => simp [numbers]
  | cons w ws ih =>
    rw [numbers, List.mem_append]
    -- A number is in the first word or stands in the later ones as its difference to 64 does.
    by_cases hn : n < 64
    · have hlater : i * 64 + n ∉ numbers (i + 1) ws := by
        intro h
        have := le_of_mem_numbers h
        omega
      rw [Nat.div_eq_of_lt hn, Nat.mod_eq_of_lt hn, List.getD_cons_zero, ← mem_places]
      simp [hlater]
    · obtain ⟨k, rfl⟩ := Nat.exists_eq_add_of_le (Nat.le_of_not_lt hn)
      have hfirst : i * 64 + (64 + k) ∉ (places w).map (i * 64 + ·) := by
        intro h
        obtain ⟨j, hj, e⟩ := List.mem_map.mp h
        have := lt_of_mem_places hj
        omega
      have hk : i * 64 + (64 + k) = (i + 1) * 64 + k := by omega
      have hdiv : (64 + k) / 64 = k / 64 + 1 := by omega
      have hmod : (64 + k) % 64 = k % 64 := by omega
      rw [hdiv, hmod, List.getD_cons_succ, ← ih (i + 1) k, ← hk]
      simp only [hfirst, false_or]

theorem mem_toList : n ∈ s.toList ↔ s.contains n = true := by
  have h := mem_numbers 0 n s.words.toList
  rw [Nat.zero_mul, Nat.zero_add] at h
  rw [toList_eq, h, contains_eq, word, List.getD_eq_getElem?_getD, Array.getElem?_toList,
    Array.getD_eq_getD_getElem?]

theorem toList_sorted (s : IdSet) : s.toList.Pairwise (· < ·) := by
  rw [toList_eq]
  exact numbers_sorted 0 s.words.toList

theorem cpopNatRec_eq (b : BitVec 64) (j : Nat) : b.cpopNatRec j 0 = ((List.range j).filter b.getLsbD).length := by
  induction j with
  | zero => rfl
  | succ j ih =>
    rw [BitVec.cpopNatRec_succ, BitVec.cpopNatRec_add, ih, List.range_succ, List.filter_append, List.length_append]
    cases hbit : b.getLsbD j <;> simp [hbit]

theorem ones_eq (w : UInt64) : ones w = (places w).length := by
  rw [ones, BitVec.toNat_cpop, cpopNatRec_eq, places]

theorem length_numbers (i : Nat) (ws : List UInt64) : (numbers i ws).length = (ws.map ones).sum := by
  induction ws generalizing i with
  | nil => rfl
  | cons w ws ih => rw [numbers, List.length_append, List.length_map, ih, List.map_cons, List.sum_cons, ones_eq]

theorem size_eq (s : IdSet) : s.size = s.toList.length := by
  rw [toList_eq, length_numbers, size, ← Array.foldl_toList, List.sum_eq_foldl, List.foldl_map]

/-! ## A set and its members -/

/-- The members of a set are these. -/
def Represents (s : IdSet) (m : Finset Nat) : Prop := ∀ n, s.contains n = true ↔ n ∈ m

theorem represents_empty (h : ∀ n, s.contains n = false) : s.Represents ∅ := by
  intro n
  simp [h n]

theorem Represents.contains_eq (h : s.Represents m) (n : Nat) : s.contains n = decide (n ∈ m) := by
  rw [Bool.eq_iff_iff, h n, decide_eq_true_eq]

theorem Represents.toList_eq (h : s.Represents m) : s.toList = m.sort (· ≤ ·) := by
  apply s.toList_sorted.eq_of_mem_iff (Finset.sortedLT_sort m).pairwise
  intro n
  rw [mem_toList, h n, Finset.mem_sort]

theorem Represents.size_eq (h : s.Represents m) : s.size = m.card := by
  rw [IdSet.size_eq, h.toList_eq, Finset.length_sort]

theorem Represents.insert (h : s.Represents m) (n : Nat) : (s.insert n).Represents (Insert.insert n m) := by
  intro k
  rw [contains_insert_iff, h k, Finset.mem_insert]

theorem Represents.erase (h : s.Represents m) (n : Nat) : (s.erase n).Represents (m.erase n) := by
  intro k
  rw [contains_erase_iff, h k, Finset.mem_erase]

theorem Represents.mark (h : s.Represents m) (n : Nat) :
    (s.mark n).1 = decide (n ∉ m) ∧ (s.mark n).2.Represents (Insert.insert n m) := by
  by_cases hn : n ∈ m
  · rw [IdSet.mark, (h n).mpr hn, if_pos rfl, Finset.insert_eq_of_mem hn]
    exact ⟨by simp [hn], h⟩
  · rw [IdSet.mark, h.contains_eq, decide_eq_false hn, if_neg (by simp)]
    exact ⟨by simp [hn], h.insert n⟩

/-! ## Indexes -/

theorem place_of_nonneg {i : Int} (hi : 0 ≤ i) : place i = .bit i.toNat := by rw [place, if_pos hi]

theorem insertAt?_of_nonneg {i : Int} (hi : 0 ≤ i) : s.insertAt? i = some (s.insert i.toNat) := by
  rw [insertAt?, place_of_nonneg hi]

theorem containsAt?_of_nonneg {i : Int} (hi : 0 ≤ i) : s.containsAt? i = some (s.contains i.toNat) := by
  rw [containsAt?, place_of_nonneg hi]

theorem eraseAt?_of_nonneg {i : Int} (hi : 0 ≤ i) : s.eraseAt? i = some (s.erase i.toNat) := by
  rw [eraseAt?, place_of_nonneg hi]

theorem markAt?_of_nonneg {i : Int} (hi : 0 ≤ i) : s.markAt? i = some (s.mark i.toNat) := by
  rw [markAt?, containsAt?_of_nonneg hi, mark]
  cases s.contains i.toNat with
  | true => rfl
  | false => rw [insertAt?_of_nonneg hi]; rfl

/-! ## Edits -/

/-- A change of a set, at an index as a caller gives it. -/
inductive Edit where
  | insert (i : Int)
  | mark (i : Int)
  | erase (i : Int)
  | clear

namespace Edit

variable {e : Edit} {es : List Edit}

/-- The edit is at a number, not at a negative index. -/
def Placed : Edit → Prop
  | insert i | mark i | erase i => 0 ≤ i
  | clear => True

/-- What an edit answers and what it makes of a set. Only a mark answers something. -/
def run? (s : IdSet) : Edit → Option (Option Bool × IdSet)
  | insert i => (s.insertAt? i).map fun t => (none, t)
  | mark i => (s.markAt? i).map fun p => (some p.1, p.2)
  | erase i => (s.eraseAt? i).map fun t => (none, t)
  | clear => some (none, s.clear)

def runAll? : IdSet → List Edit → Option (List (Option Bool) × IdSet)
  | s, [] => some ([], s)
  | s, e :: es =>
    match e.run? s with
    | some (b, t) => (runAll? t es).map fun p => (b :: p.1, p.2)
    | none => none

/-- The members after an edit. -/
def after (m : Finset Nat) : Edit → Finset Nat
  | insert i | mark i => Insert.insert i.toNat m
  | erase i => m.erase i.toNat
  | clear => ∅

def answer (m : Finset Nat) : Edit → Option Bool
  | mark i => some (decide (i.toNat ∉ m))
  | _ => none

def afterAll (m : Finset Nat) (es : List Edit) : Finset Nat := es.foldl after m

def answers : Finset Nat → List Edit → List (Option Bool)
  | _, [] => []
  | m, e :: es => e.answer m :: answers (e.after m) es

theorem run?_represents (h : s.Represents m) (he : e.Placed) :
    ∃ t, e.run? s = some (e.answer m, t) ∧ t.Represents (e.after m) := by
  cases e with
  | insert i => exact ⟨_, by rw [run?, insertAt?_of_nonneg he]; rfl, h.insert i.toNat⟩
  | mark i =>
    obtain ⟨hnew, hrep⟩ := h.mark i.toNat
    exact ⟨_, by rw [run?, markAt?_of_nonneg he, Option.map_some, hnew]; rfl, hrep⟩
  | erase i => exact ⟨_, by rw [run?, eraseAt?_of_nonneg he]; rfl, h.erase i.toNat⟩
  | clear => exact ⟨_, rfl, represents_empty (contains_clear s)⟩

theorem runAll?_represents (h : s.Represents m) (hes : ∀ e ∈ es, e.Placed) :
    ∃ t, runAll? s es = some (answers m es, t) ∧ t.Represents (afterAll m es) := by
  induction es generalizing s m with
  | nil => exact ⟨s, rfl, h⟩
  | cons e es ih =>
    obtain ⟨t, hrun, ht⟩ := run?_represents h (hes e List.mem_cons_self)
    obtain ⟨r, hrest, hr⟩ := ih ht fun d hd => hes d (List.mem_cons_of_mem e hd)
    refine ⟨r, ?_, hr⟩
    rw [runAll?, hrun]
    simp only [hrest, Option.map_some, answers]

end Edit

/-! ## From the beginning -/

def fresh? : Option Int64 → Option IdSet
  | none => some empty
  | some capacity => withCapacity? capacity.toInt

theorem fresh?_represents {capacity? : Option Int64} (h : fresh? capacity? = some s) : s.Represents ∅ := by
  cases capacity? with
  | none =>
    obtain rfl := Option.some.inj h
    exact represents_empty contains_empty
  | some capacity => exact represents_empty (contains_withCapacity? h)

/-- There is no room for what cannot be addressed. Close to the largest capacity the number of words wraps
around and comes out negative, and then the least room is enough. -/
theorem withCapacity?_eq_none_iff (capacity : Int64) :
    withCapacity? capacity.toInt = none ↔ 2 ^ 51 < capacity.toInt ∧ capacity.toInt < 2 ^ 63 - 63 := by
  have hlow := capacity.le_toInt
  have hhigh := capacity.toInt_lt
  have hroom : withCapacity? capacity.toInt = none ↔
      ¬((capacity.toInt + 63).bmod (2 ^ 64)).tdiv 64 * 8 ≤ 2 ^ 48 := by
    simp [withCapacity?, Memory.holds]
  have hwords : ∀ a : Int, a.tdiv 64 * 8 ≤ 2 ^ 48 ↔ a < 2 ^ 51 + 64 := by
    intro a
    have hsign : Int.sign 64 = 1 := rfl
    rw [Int.tdiv_eq_ediv, hsign]
    split <;> omega
  rw [hroom, hwords]
  by_cases hwrap : capacity.toInt < 2 ^ 63 - 63
  · rw [Int.bmod_eq_of_le (by omega) (by omega)]
    omega
  · -- The sum passes the largest word and comes out negative.
    have hbmod : (capacity.toInt + 63).bmod (2 ^ 64) = capacity.toInt + 63 - 2 ^ 64 := by
      rw [← Int.sub_bmod_right]
      exact Int.bmod_eq_of_le (by omega) (by omega)
    rw [hbmod]
    omega

theorem fresh?_eq_none_iff {capacity? : Option Int64} :
    fresh? capacity? = none ↔ ∃ c ∈ capacity?, 2 ^ 51 < c.toInt ∧ c.toInt < 2 ^ 63 - 63 := by
  cases capacity? with
  | none => simp [fresh?]
  | some capacity => simp [fresh?, withCapacity?_eq_none_iff]

/-- A set is begun empty, with any room that can be addressed or without. After edits at any numbers in any
order, marks have told whether their numbers were new, and the set holds what the edits describe: a question is
about membership, the size is the number of members, and a walk shows the members in increasing order until its
visitor wants no more. -/
theorem edits_described (capacity? : Option Int64) (es : List Edit) (hes : ∀ e ∈ es, e.Placed) :
    (fresh? capacity? = none ↔ ∃ c ∈ capacity?, 2 ^ 51 < c.toInt ∧ c.toInt < 2 ^ 63 - 63) ∧
    ∀ s, fresh? capacity? = some s → ∃ t,
      Edit.runAll? s es = some (Edit.answers ∅ es, t) ∧
      (∀ i, 0 ≤ i → t.containsAt? i = some (decide (i.toNat ∈ Edit.afterAll ∅ es))) ∧
      t.size = (Edit.afterAll ∅ es).card ∧
      ∀ {σ : Type u} (f : σ → Nat → σ × Bool) (x : σ),
        t.walk f x = (offer f x ((Edit.afterAll ∅ es).sort (· ≤ ·))).1 := by
  refine ⟨fresh?_eq_none_iff, ?_⟩
  intro s hs
  obtain ⟨t, hrun, ht⟩ := Edit.runAll?_represents (fresh?_represents hs) hes
  refine ⟨t, hrun, ?_, ht.size_eq, ?_⟩
  · intro i hi
    rw [containsAt?_of_nonneg hi, ht.contains_eq]
  · intro σ f x
    rw [walk_eq, ht.toList_eq]

/-- A set with room for a hundred numbers grows, and a walk through it is stopped at the second member. -/
theorem edits_described_grown : ∃ s t, fresh? (some 100) = some s ∧
    Edit.runAll? s [.mark 3, .mark 3, .insert 200, .insert 64, .erase 63] =
      some ([some true, some false, none, none, none], t) ∧
    t.containsAt? 200 = some true ∧ t.containsAt? 63 = some false ∧ t.size = 3 ∧
    t.walk (fun ns n => (ns ++ [n], n < 64)) [] = [3, 64] := by
  obtain ⟨-, hedits⟩ := edits_described (some 100)
    [.mark 3, .mark 3, .insert 200, .insert 64, .erase 63] (by simp [Edit.Placed])
  have hfresh : fresh? (some 100) = some ⟨#[0, 0]⟩ := by decide
  obtain ⟨t, hrun, hin, hsize, hwalk⟩ := hedits _ hfresh
  have hmembers : Edit.afterAll ∅ [.mark 3, .mark 3, .insert 200, .insert 64, .erase 63] = [3, 64, 200].toFinset := by
    decide
  have hsort : ([3, 64, 200].toFinset).sort (· ≤ ·) = [3, 64, 200] :=
    (List.toFinset_sort (· ≤ ·) (by decide)).mpr (by decide)
  rw [hmembers] at hsize hin hwalk
  refine ⟨_, t, hfresh, hrun, hin 200 (by decide), hin 63 (by decide), hsize, ?_⟩
  rw [hwalk, hsort]
  rfl

end IdSet

end OpTree
