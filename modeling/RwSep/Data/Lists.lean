import Mathlib.Data.List.Forall2
import Mathlib.Data.List.Pairwise

namespace RwSep.Data

variable {α β : Type} {R : α → β → Prop} {left : List α} {right : List β}

theorem exists_of_forall₂ (corresponds : List.Forall₂ R left right) {x : α} (member : x ∈ left) :
    ∃ y ∈ right, R x y := by
  induction corresponds with
  | nil => simp at member
  | cons head tail ih =>
      rcases List.mem_cons.mp member with rfl | inTail
      · exact ⟨_, by simp, head⟩
      · obtain ⟨y, inRight, related⟩ := ih inTail
        exact ⟨y, by simp [inRight], related⟩

theorem pairwise_of_forall₂ {S : β → β → Prop} {T : α → α → Prop}
    (corresponds : List.Forall₂ R left right)
    (carries : ∀ {x y u v}, R x u → R y v → S u v → T x y) (pairwise : right.Pairwise S) :
    left.Pairwise T := by
  induction corresponds with
  | nil => exact .nil
  | cons head tail ih =>
      obtain ⟨fromHead, inTail⟩ := List.pairwise_cons.mp pairwise
      refine List.pairwise_cons.mpr ⟨fun y member => ?_, ih inTail⟩
      obtain ⟨v, inRight, related⟩ := exists_of_forall₂ tail member
      exact carries head related (fromHead v inRight)

/-- In a list of pairs a symmetric pairwise relation holds between any two different entries. -/
theorem forall_of_pairwise_pairs {ι : Type} (S : α → α → Prop) (symmetric : ∀ {x y}, S x y → S y x)
    (entry : Bool → ι → α) {order : List ι}
    (pairwise : (order.flatMap fun i => [entry false i, entry true i]).Pairwise S) {i j : ι} {side other : Bool}
    (inOrder : i ∈ order) (inOrder' : j ∈ order) (different : (side, i) ≠ (other, j)) :
    S (entry side i) (entry other j) := by
  obtain ⟨within, across⟩ := List.pairwise_flatMap.mp pairwise
  by_cases same : i = j
  · subst same
    have here := within i inOrder
    rw [List.pairwise_pair] at here
    cases side <;> cases other
    · exact absurd rfl different
    · exact here
    · exact symmetric here
    · exact absurd rfl different
  · have symm : Std.Symm fun i j =>
        ∀ x ∈ [entry false i, entry true i], ∀ y ∈ [entry false j, entry true j], S x y :=
      ⟨fun _ _ related x inX y inY => symmetric (related y inY x inX)⟩
    have apart := across.forall inOrder inOrder' same
    apply apart
    · cases side <;> simp
    · cases other <;> simp

theorem exists_mem_iff {P : α → Prop} {items : List α} {index : Nat} {item : α}
    (found : items[index]? = some item) :
    (∃ x ∈ items, P x) ↔ P item ∨ ∃ other x, other ≠ index ∧ items[other]? = some x ∧ P x := by
  apply Iff.intro
  · intro found
    obtain ⟨x, member, holds⟩ := found
    obtain ⟨other, at_⟩ := List.mem_iff_getElem?.mp member
    by_cases same : other = index
    · subst same
      cases found.symm.trans at_
      exact .inl holds
    · exact .inr ⟨other, x, same, at_, holds⟩
  · intro found
    rcases found with holds | ⟨other, x, _, at_, holds⟩
    · exact ⟨item, List.mem_of_getElem? found, holds⟩
    · exact ⟨x, List.mem_of_getElem? at_, holds⟩

theorem exists_mem_set_iff {P : α → Prop} {items : List α} {index : Nat} {old new : α}
    (found : items[index]? = some old) :
    (∃ x ∈ items.set index new, P x) ↔ P new ∨ ∃ other x, other ≠ index ∧ items[other]? = some x ∧ P x := by
  have bound := (List.getElem?_eq_some_iff.mp found).1
  rw [exists_mem_iff (List.getElem?_set_self bound)]
  refine or_congr_right (exists_congr fun other => exists_congr fun x => and_congr_right fun different => ?_)
  rw [List.getElem?_set_ne (Ne.symm different)]

/-- A prefix of fenced blocks: as many whole blocks as it has fences, and a part of the next. -/
theorem prefix_fenced {fences : β → Bool} {fence : β} (fenced : fences fence = true) {block : α → List β}
    (unfenced : ∀ item, ∀ entry ∈ block item, fences entry = false) {items : List α} {entries : List β}
    (inFront : entries <+: items.flatMap fun item => block item ++ [fence]) :
    ∃ part, entries = ((items.take (entries.countP fences)).flatMap fun item => block item ++ [fence]) ++ part ∧
      (part = [] ∨ ∃ next, items[entries.countP fences]? = some next ∧ part <+: block next) := by
  induction items generalizing entries with
  | nil => exact ⟨[], by simpa using inFront, .inl rfl⟩
  | cons item rest ih =>
      rw [List.flatMap_cons] at inFront
      by_cases short : entries.length ≤ (block item).length
      · have part : entries <+: block item := by
          apply List.prefix_of_prefix_length_le inFront _ short
          rw [List.append_assoc]
          exact List.prefix_append _ _
        have none : entries.countP fences = 0 := by
          apply List.countP_eq_zero.mpr
          intro entry member
          rw [unfenced item entry (part.subset member)]
          simp
        exact ⟨entries, by simp [none], .inr ⟨item, by simp [none], part⟩⟩
      · have whole : block item ++ [fence] <+: entries := by
          apply List.prefix_of_prefix_length_le (List.prefix_append _ _) inFront
          simp
          omega
        obtain ⟨later, rfl⟩ := whole
        obtain ⟨part, same, found⟩ := ih ((List.prefix_append_right_inj _).mp inFront)
        have count : (block item ++ [fence] ++ later).countP fences = later.countP fences + 1 := by
          have none : (block item).countP fences = 0 := by
            apply List.countP_eq_zero.mpr
            intro entry member
            rw [unfenced item entry member]
            simp
          rw [List.countP_append, List.countP_append, none, List.countP_singleton, if_pos fenced]
          omega
        refine ⟨part, ?_, ?_⟩
        · rw [count, List.take_succ_cons, List.flatMap_cons, List.append_assoc (block item ++ [fence]), ← same]
        · rw [count, List.getElem?_cons_succ]
          exact found

theorem within_or_past {part first second : List α} (shorter : part <+: first ++ second) :
    part <+: first ∨ ∃ more, part = first ++ more ∧ more <+: second := by
  rcases List.prefix_or_prefix_of_prefix shorter (List.prefix_append first second) with within | beyond
  · exact .inl within
  · obtain ⟨more, rfl⟩ := beyond
    exact .inr ⟨more, rfl, (List.prefix_append_right_inj first).mp shorter⟩

theorem suffix_within_or_past {ending first second : List α} (shorter : ending <:+ first ++ second) :
    ending <:+ second ∨ ∃ more, ending = more ++ second ∧ more <:+ first := by
  rcases List.suffix_or_suffix_of_suffix shorter (List.suffix_append first second) with within | beyond
  · exact .inl within
  · obtain ⟨more, rfl⟩ := beyond
    exact .inr ⟨more, rfl, List.suffix_append_self_iff.mp shorter⟩

/-- Of pieces that open with a mark: none has been opened, or the last one opened has got so far. -/
theorem prefix_marked {piece body : α → List β} {mark : β} (marked : ∀ item, piece item = mark :: body item) {items : List α}
    {part : List β} (shorter : part <+: items.flatMap piece) :
    part = [] ∨ ∃ front item behind more, items = front ++ item :: behind ∧ part = front.flatMap piece ++ mark :: more ∧
      more <+: body item := by
  induction items generalizing part with
  | nil => exact .inl (List.prefix_nil.mp shorter)
  | cons item items ih =>
      rw [List.flatMap_cons, marked] at shorter
      rcases within_or_past shorter with within | ⟨later, rfl, within⟩
      · rcases List.prefix_cons_iff.mp within with rfl | ⟨more, rfl, inBody⟩
        · exact .inl rfl
        · exact .inr ⟨[], item, items, more, rfl, rfl, inBody⟩
      · rcases ih within with rfl | ⟨front, next, behind, more, rfl, rfl, inBody⟩
        · exact .inr ⟨[], item, items, body item, rfl, List.append_nil _, List.prefix_rfl⟩
        · exact .inr ⟨item :: front, next, behind, more, rfl, by simp [marked], inBody⟩

end RwSep.Data
