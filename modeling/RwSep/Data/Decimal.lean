import Mathlib.Data.List.Basic

namespace RwSep.Data

/-! Decimal numbers inside file names. -/

def StartsWith (text front : String) : Prop := front.toList <+: text.toList

instance (text front : String) : Decidable (StartsWith text front) :=
  inferInstanceAs (Decidable (front.toList <+: text.toList))

theorem startsWith_append (front rest : String) : StartsWith (front ++ rest) front := by
  unfold StartsWith
  rw [String.toList_append]
  exact List.prefix_append ..

theorem isDigit_of_mem_repr {digit : Char} {number : Nat} (member : digit ∈ number.repr.toList) : digit.isDigit := by
  rw [Nat.toList_repr] at member
  exact Nat.isDigit_of_mem_toDigits (by omega) (by omega) member

theorem slash_not_mem_repr (number : Nat) : '/' ∉ number.repr.toList := fun member =>
  absurd (isDigit_of_mem_repr member) (by decide)

theorem repr_inj {left right : Nat} : left.repr = right.repr ↔ left = right := by
  apply Iff.intro
  · intro same
    have digits := congrArg String.toList same
    rw [Nat.toList_repr, Nat.toList_repr] at digits
    rw [← Nat.ofDigitChars_ten_toDigits (n := left), digits, Nat.ofDigitChars_ten_toDigits]
  · exact congrArg Nat.repr

theorem toString_inj {left right : Int} (same : toString left = toString right) : left = right := by
  have unsigned (positive negative : Nat) : positive.repr ≠ "-" ++ negative.repr := by
    intro same
    have sign : '-' ∈ ("-" ++ negative.repr).toList := by
      rw [String.toList_append]
      exact List.mem_append_left _ List.mem_cons_self
    exact absurd (isDigit_of_mem_repr (same ▸ sign)) (by decide)
  rw [Int.toString_eq_repr, Int.toString_eq_repr, Int.repr_eq_if, Int.repr_eq_if] at same
  split at same <;> split at same
  · have := repr_inj.mp same
    omega
  · exact absurd same (unsigned _ _)
  · exact absurd same.symm (unsigned _ _)
  · have := repr_inj.mp ((String.append_right_inj _).mp same)
    omega

theorem slash_not_mem_toString (number : Int) : '/' ∉ (toString number).toList := by
  rw [Int.toString_eq_repr, Int.repr_eq_if]
  split
  · exact slash_not_mem_repr _
  · rw [String.toList_append, List.mem_append]
    intro found
    rcases found with sign | digits
    · simp at sign
    · exact slash_not_mem_repr _ digits

theorem eq_of_prefix_separator {separator : Char} {left right rest : List Char}
    (leftFree : separator ∉ left) (rightFree : separator ∉ right)
    (front : left ++ [separator] <+: right ++ separator :: rest) : left = right := by
  obtain ⟨tail, whole⟩ := front
  have upTo : ∀ (before after : List Char), separator ∉ before →
      (before ++ separator :: after).takeWhile (· ≠ separator) = before := by
    intro before after free
    rw [List.takeWhile_append_of_pos]
    · simp
    · intro x member
      simp only [decide_eq_true_eq]
      intro same
      subst same
      exact free member
  rw [← upTo left tail leftFree, ← upTo right rest rightFree, ← whole]
  simp

/-- A directory named by a number starts a path exactly when it is the path's own directory. -/
theorem startsWith_directory_iff (front rest : String) (left right : Int) :
    StartsWith (front ++ toString right ++ "/" ++ rest) (front ++ toString left ++ "/") ↔
      left = right := by
  apply Iff.intro
  · intro starts
    unfold StartsWith at starts
    simp only [String.toList_append, List.append_assoc, List.prefix_append_right_inj] at starts
    have same := eq_of_prefix_separator (slash_not_mem_toString left) (slash_not_mem_toString right) starts
    exact toString_inj (String.toList_inj.mp same)
  · intro same
    subst same
    exact startsWith_append ..

theorem directory_inj {front leftName rightName : String} {left right : Int}
    (same : front ++ toString left ++ "/" ++ leftName = front ++ toString right ++ "/" ++ rightName) :
    left = right ∧ leftName = rightName := by
  have directory : left = right := by
    refine (startsWith_directory_iff front rightName left right).mp ?_
    rw [← same]
    exact startsWith_append ..
  subst directory
  exact ⟨rfl, String.append_right_inj _ |>.mp same⟩

/-- A zero written after a decimal number multiplies it by ten, unless the number is zero. -/
theorem repr_append_zero_eq_repr_iff (left right : Nat) :
    left.repr ++ Nat.repr 0 = right.repr ↔ left ≠ 0 ∧ right = 10 * left := by
  by_cases zero : left = 0
  · subst zero
    refine iff_of_false (fun same => ?_) (by simp)
    have digits : ['0', '0'] = Nat.toDigits 10 right := by
      rw [← Nat.toList_repr, ← same]
      rfl
    obtain rfl : 0 = right := by
      rw [← Nat.ofDigitChars_ten_toDigits (n := right), ← digits]
      rfl
    simp at digits
  · have long : 10 ≤ 10 * left := by omega
    have appended : (10 * left).repr = left.repr ++ Nat.repr 0 := by
      rw [Nat.repr_eq_repr_append_repr long]
      congr 2 <;> omega
    rw [← appended, repr_inj]
    omega

end RwSep.Data
