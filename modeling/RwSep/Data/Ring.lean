import Mathlib.Data.List.Chain
import Mathlib.Data.List.Count
import Mathlib.Data.List.Nodup

namespace RwSep.Data

variable {α : Type}

/-! Circular lists given by a successor function, and the rounds along them. -/

/-- `next` leads from each entry to the one after it, and from the last to the first. -/
def Ring (next : α → α) (order : List α) : Prop :=
  (order ++ order.head?.toList).IsChain fun here there => next here = there

/-- The entries after `start`, then those before it. -/
def roundFrom [DecidableEq α] (order : List α) (start : α) : List α :=
  (order.dropWhile (· ≠ start)).tail ++ order.takeWhile (· ≠ start)

variable {next : α → α} {order left right : List α} {start first last : α}

theorem Ring.of_steps (steps : ∀ position here there, order[position]? = some here →
      order[position + 1]? = some there → next here = there)
    (headed : order[0]? = some first) (ended : order[order.length - 1]? = some last)
    (closes : next last = first) : Ring next order := by
  have whole : order ++ order.head?.toList = order ++ [first] := by
    rw [List.head?_eq_getElem?, headed]
    rfl
  obtain ⟨nonempty, _⟩ := List.getElem?_eq_some_iff.mp headed
  rw [Ring, whole, List.isChain_iff_getElem]
  intro position bound
  simp only [List.length_append, List.length_singleton] at bound
  by_cases inner : position + 1 < order.length
  · rw [List.getElem_append_left (by omega), List.getElem_append_left inner]
    exact steps position _ _ (List.getElem?_eq_getElem _) (List.getElem?_eq_getElem _)
  · obtain rfl : position = order.length - 1 := by omega
    obtain ⟨_, atEnd⟩ := List.getElem?_eq_some_iff.mp ended
    rw [List.getElem_append_left (by omega), List.getElem_append_right (by omega), atEnd, closes]
    simp

theorem path_tail {items : List α}
    (path : (first :: (items ++ [last])).IsChain fun here there => next here = there) :
    (items ++ [last]).head? = some (next first) ∧
      (items ++ [last]).IsChain fun here there => next here = there := by
  obtain ⟨leads, rest⟩ := List.isChain_cons.mp path
  obtain ⟨there, found⟩ : ∃ there, (items ++ [last]).head? = some there := by cases items <;> simp
  exact ⟨by rw [found, leads there found], rest⟩

theorem Ring.chain (ring : Ring next (left ++ start :: right)) :
    (start :: (right ++ left ++ [start])).IsChain fun here there => next here = there := by
  cases left with
  | nil => simpa [Ring] using ring
  | cons first rest =>
      have whole : (first :: rest ++ start :: (right ++ [first])).IsChain fun here there => next here = there := by
        simpa [Ring] using ring
      obtain ⟨before, after⟩ := List.isChain_split.mp whole
      have joined : (start :: right ++ first :: (rest ++ [start])).IsChain fun here there => next here = there :=
        List.isChain_split.mpr ⟨after, before⟩
      simpa using joined

/-- From any entry the successor function leads through all the others and back. -/
theorem Ring.round (ring : Ring next (left ++ start :: right)) :
    (right ++ left ++ [start]).head? = some (next start) ∧
      (right ++ left ++ [start]).IsChain fun here there => next here = there :=
  path_tail ring.chain

variable [DecidableEq α]

theorem exists_roundFrom (member : start ∈ order) :
    ∃ left right, order = left ++ start :: right ∧ roundFrom order start = right ++ left := by
  obtain ⟨left, right, rfl, absent⟩ := List.eq_append_cons_of_mem member
  have others : ∀ entry ∈ left, decide (entry ≠ start) = true := by
    intro entry inLeft
    apply decide_eq_true
    intro same
    exact absent (same ▸ inLeft)
  refine ⟨left, right, rfl, ?_⟩
  rw [roundFrom, List.dropWhile_append_of_pos others, List.takeWhile_append_of_pos others,
    List.dropWhile_cons_of_neg (by simp), List.takeWhile_cons_of_neg (by simp)]
  simp

theorem roundFrom_perm (member : start ∈ order) : (start :: roundFrom order start).Perm order := by
  obtain ⟨left, right, rfl, same⟩ := exists_roundFrom member
  rw [same]
  change (start :: right ++ left).Perm (left ++ start :: right)
  exact List.perm_append_comm

theorem count_others {items : List α} {entry : α} (listed : (start :: items).Perm order) (distinct : order.Nodup)
    (member : entry ∈ order) : items.count entry = if entry = start then 0 else 1 := by
  have total := listed.count_eq entry
  rw [List.count_eq_one_of_mem distinct member] at total
  by_cases same : entry = start
  · rw [same, List.count_cons_self] at total
    rw [if_pos same, same]
    omega
  · rw [List.count_cons_of_ne (Ne.symm same)] at total
    rw [if_neg same, total]

end RwSep.Data
