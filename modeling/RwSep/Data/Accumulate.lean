import Mathlib.Algebra.BigOperators.Group.List.Basic
import Mathlib.Algebra.Order.Ring.Int

namespace RwSep.Data

/-! Accumulators of machine integers: sums modulo the width, and the best value so far. -/

section Sums

variable {α : Type} {width : Nat}

/-- A sum of machine integers is the sum of their values, to the width. -/
theorem foldl_sum {value : α → BitVec width} {number : α → Int} (items : List α) (start : Int)
    (represents : ∀ item, value item = BitVec.ofInt width (number item)) :
    items.foldl (fun sum item => sum + value item) (BitVec.ofInt width start) =
      BitVec.ofInt width (start + (items.map number).sum) := by
  induction items generalizing start with
  | nil => simp
  | cons item rest ih =>
      rw [List.foldl_cons, represents, ← BitVec.ofInt_add, ih, List.map_cons, List.sum_cons, add_assoc]

end Sums

section Best

variable {α : Type} (key : α → Int) (items : List α) (start : α)

/-- The item with the least key, or the start if no key is less than its own. -/
def least : α :=
  items.foldl (fun best item => if key item < key best then item else best) start

theorem least_le : key (least key items start) ≤ key start ∧ ∀ item ∈ items, key (least key items start) ≤ key item := by
  induction items generalizing start with
  | nil => exact ⟨Int.le_refl _, fun _ member => absurd member List.not_mem_nil⟩
  | cons item rest ih =>
      obtain ⟨start_le, rest_le⟩ := ih (if key item < key start then item else start)
      change key (least key (item :: rest) start) ≤ _ at start_le
      have both : key (least key (item :: rest) start) ≤ key start ∧ key (least key (item :: rest) start) ≤ key item := by
        split at start_le
        · exact ⟨by omega, start_le⟩
        · exact ⟨start_le, by omega⟩
      refine ⟨both.1, fun other member => ?_⟩
      rcases List.mem_cons.mp member with rfl | later
      · exact both.2
      · exact rest_le other later

theorem least_mem : least key items start = start ∨ least key items start ∈ items := by
  induction items generalizing start with
  | nil => exact Or.inl rfl
  | cons item rest ih =>
      rcases ih (if key item < key start then item else start) with same | member
      · change least key (item :: rest) start = _ at same
        split at same
        · rw [same]
          exact Or.inr List.mem_cons_self
        · exact Or.inl same
      · exact Or.inr (List.mem_cons_of_mem item member)

theorem le_least_iff {bound : Int} :
    bound ≤ key (least key items start) ↔ bound ≤ key start ∧ ∀ item ∈ items, bound ≤ key item := by
  obtain ⟨start_le, all_le⟩ := least_le key items start
  constructor
  · intro below
    exact ⟨Int.le_trans below start_le, fun item member => Int.le_trans below (all_le item member)⟩
  · intro below
    rcases least_mem key items start with same | member
    · rw [same]
      exact below.1
    · exact below.2 _ member

/-- The least key is that of an item, and the least of theirs, exactly when the start is no smaller. -/
theorem least_reached_iff :
    (∃ item ∈ items, (∀ other ∈ items, key item ≤ key other) ∧ key (least key items start) = key item) ↔
      ∃ item ∈ items, key item ≤ key start := by
  obtain ⟨start_le, all_le⟩ := least_le key items start
  constructor
  · intro reached
    obtain ⟨item, member, _, same⟩ := reached
    exact ⟨item, member, by omega⟩
  · intro small
    obtain ⟨item, member, below⟩ := small
    rcases least_mem key items start with same | inItems
    · rw [same] at all_le ⊢
      have equal := Int.le_antisymm (all_le item member) below
      exact ⟨item, member, by rwa [← equal], equal⟩
    · exact ⟨_, inItems, all_le, rfl⟩

end Best

end RwSep.Data
