import Mathlib.Data.List.TakeWhile
import Mathlib.Tactic

/-! Tables that keep the first value that comes for a key and have room for so many keys. What such
a table knows is told by the history of what came: the first value of a key, if not too many other
keys came before it. -/

namespace DosKernel.Lib

variable {α β : Type*} [DecidableEq α]

def firstValue (k : α) (ps : List (α × β)) : Option β := (ps.find? fun p => p.1 = k).map Prod.snd

/-- A value goes to the end of the table if its key is not there and there is room. -/
def addFirst (cap : ℕ) (t : List (α × β)) (p : α × β) : List (α × β) :=
  if p.1 ∉ t.map Prod.fst ∧ t.length < cap then t ++ [p] else t

/-- The table after some values have come. -/
def firstTable (cap : ℕ) (ps : List (α × β)) : List (α × β) := ps.foldl (addFirst cap) []

/-- How many different keys are in a list. -/
def keyCount (ps : List (α × β)) : ℕ := (ps.map Prod.fst).toFinset.card

/-- How many different keys came before a key. -/
def keysBefore (k : α) (ps : List (α × β)) : ℕ := keyCount (ps.takeWhile fun p => p.1 ≠ k)

variable {cap : ℕ} {k : α} {p : α × β} {ps t : List (α × β)}

@[simp] theorem firstValue_nil (k : α) : firstValue k ([] : List (α × β)) = none := rfl

theorem firstValue_eq_none : firstValue k ps = none ↔ k ∉ ps.map Prod.fst := by
  simp only [firstValue, Option.map_eq_none_iff, List.find?_eq_none, decide_eq_true_eq, List.mem_map,
    not_exists, not_and]

/-- What comes later matters only for a key that was not there. -/
theorem firstValue_concat (k : α) (ps : List (α × β)) (p : α × β) :
    firstValue k (ps ++ [p]) = (firstValue k ps).or (if p.1 = k then some p.2 else none) := by
  rw [firstValue, List.find?_append, Option.map_or]
  congr 1
  by_cases hp : p.1 = k
  · rw [List.find?_cons_of_pos (by simpa using hp), if_pos hp]
    rfl
  · rw [List.find?_cons_of_neg (by simpa using hp), if_neg hp]
    rfl

theorem keysBefore_concat_of_mem (h : k ∈ ps.map Prod.fst) (p : α × β) :
    keysBefore k (ps ++ [p]) = keysBefore k ps := by
  obtain ⟨q, hq, heq⟩ := List.mem_map.mp h
  rw [keysBefore, keysBefore, List.takeWhile_append, if_neg]
  intro hall
  have htake := (List.takeWhile_prefix (p := fun p => decide (p.1 ≠ k)) (l := ps)).eq_of_length hall
  exact absurd heq (of_decide_eq_true (List.takeWhile_eq_self_iff.mp htake q hq))

theorem keysBefore_concat_self (h : p.1 ∉ ps.map Prod.fst) :
    keysBefore p.1 (ps ++ [p]) = keyCount ps := by
  have hself : ps.takeWhile (fun q => decide (q.1 ≠ p.1)) = ps :=
    List.takeWhile_eq_self_iff.mpr fun q hq => decide_eq_true fun heq =>
      h (List.mem_map.mpr ⟨q, hq, heq⟩)
  rw [keysBefore, List.takeWhile_append, if_pos (congrArg List.length hself),
    List.takeWhile_cons_of_neg (by simp), List.append_nil]

theorem keysBefore_le (k : α) (ps : List (α × β)) : keysBefore k ps ≤ keyCount ps := by
  unfold keysBefore keyCount
  apply Finset.card_le_card
  intro a ha
  obtain ⟨q, hq, rfl⟩ := List.mem_map.mp (List.mem_toFinset.mp ha)
  exact List.mem_toFinset.mpr (List.mem_map_of_mem ((List.takeWhile_prefix _).subset hq))

theorem keyCount_concat (ps : List (α × β)) (p : α × β) :
    keyCount (ps ++ [p]) = if p.1 ∈ ps.map Prod.fst then keyCount ps else keyCount ps + 1 := by
  rw [keyCount, keyCount, List.map_append, List.toFinset_append, List.map_singleton,
    List.toFinset_cons, List.toFinset_nil, insert_empty_eq, Finset.union_comm, ← Finset.insert_eq]
  split_ifs with hp
  · rw [Finset.insert_eq_of_mem (List.mem_toFinset.mpr hp)]
  · rw [Finset.card_insert_of_notMem fun hmem => hp (List.mem_toFinset.mp hmem)]

theorem firstTable_concat (cap : ℕ) (ps : List (α × β)) (p : α × β) :
    firstTable cap (ps ++ [p]) = addFirst cap (firstTable cap ps) p := by
  rw [firstTable, List.foldl_append]
  rfl

/-- A value for a key that came before finds its key there or no room. -/
theorem addFirst_of_mem (hlength : t.length = min cap (keyCount ps))
    (hvalue : ∀ k, firstValue k t = if keysBefore k ps < cap then firstValue k ps else none)
    (hp : p.1 ∈ ps.map Prod.fst) : addFirst cap t p = t := by
  refine if_neg fun hnew => ?_
  have hknown := hvalue p.1
  rw [firstValue_eq_none.mpr hnew.1] at hknown
  split_ifs at hknown with hroom
  · exact firstValue_eq_none.mp hknown.symm hp
  · have hle := keysBefore_le p.1 ps
    have hlt := hnew.2
    omega

/-- What a table knows: the first value of a key, if there was room for it. -/
theorem firstTable_spec (cap : ℕ) (ps : List (α × β)) :
    (firstTable cap ps).length = min cap (keyCount ps) ∧ ∀ k, firstValue k (firstTable cap ps) =
      if keysBefore k ps < cap then firstValue k ps else none := by
  induction ps using List.reverseRecOn with
  | nil => simp [firstTable, keyCount]
  | append_singleton ps p ih =>
    obtain ⟨hlength, hvalue⟩ := ih
    rw [firstTable_concat, keyCount_concat]
    generalize firstTable cap ps = t at hlength hvalue
    -- the keys that came before, and those that did not come
    have hold : ∀ k, k ∈ ps.map Prod.fst → firstValue k t =
        if keysBefore k (ps ++ [p]) < cap then firstValue k (ps ++ [p]) else none := by
      intro k hk
      obtain ⟨v, hv⟩ := Option.ne_none_iff_exists'.mp (mt firstValue_eq_none.mp (not_not.mpr hk))
      rw [hvalue, keysBefore_concat_of_mem hk, firstValue_concat, hv, Option.some_or]
    have hnone : ∀ k, k ∉ ps.map Prod.fst → firstValue k t = none := by
      intro k hk
      rw [hvalue, firstValue_eq_none.mpr hk, ite_self]
    have hother : ∀ k, k ∉ ps.map Prod.fst → p.1 ≠ k → firstValue k (ps ++ [p]) = none := by
      intro k hk hne
      rw [firstValue_concat, firstValue_eq_none.mpr hk, if_neg hne, Option.or_none]
    by_cases hp : p.1 ∈ ps.map Prod.fst
    · rw [addFirst_of_mem hlength hvalue hp, if_pos hp]
      refine ⟨hlength, fun k => ?_⟩
      by_cases hk : k ∈ ps.map Prod.fst
      · exact hold k hk
      · rw [hnone k hk, hother k hk fun heq => hk (heq ▸ hp), ite_self]
    · have hmissing := firstValue_eq_none.mp (hnone p.1 hp)
      rw [if_neg hp]
      by_cases hroom : t.length < cap
      · rw [addFirst, if_pos ⟨hmissing, hroom⟩]
        refine ⟨by rw [List.length_append, List.length_singleton]; omega, fun k => ?_⟩
        rw [firstValue_concat]
        by_cases hk : k ∈ ps.map Prod.fst
        · rw [← hold k hk, if_neg fun heq : p.1 = k => hp (heq ▸ hk), Option.or_none]
        · rw [hnone k hk, Option.none_or]
          by_cases heq : p.1 = k
          · subst heq
            rw [keysBefore_concat_self hp, firstValue_concat, firstValue_eq_none.mpr hp, Option.none_or,
              if_pos rfl, if_pos (by omega)]
          · rw [hother k hk heq, if_neg heq, ite_self]
      · rw [addFirst, if_neg fun hnew => hroom hnew.2]
        refine ⟨by omega, fun k => ?_⟩
        by_cases hk : k ∈ ps.map Prod.fst
        · exact hold k hk
        · rw [hnone k hk]
          by_cases heq : p.1 = k
          · subst heq
            rw [keysBefore_concat_self hp, if_neg (by omega)]
          · rw [hother k hk heq, ite_self]

end DosKernel.Lib
