import RwSep.MemAccess.ChasingIndex
import Mathlib.Data.List.Permutation
import Mathlib.Data.Set.Card

namespace RwSep.MemAccess

open RwSep.Data RwSep.Execution

/-! Which cycles `init_chasing_index` can make, and from which draws. -/

/-- The positions that the turns accept, as long as they go on. -/
def acceptedPositions (rdrand : Rdrand) (bound : Nat) (csize : Word) : Nat → Progress → List Nat
  | 0, _ => []
  | turns + 1, progress =>
      match drawNext rdrand progress.cindex csize progress.currPos bound progress.nextPos progress.used with
      | .error _ => []
      | .ok draw =>
          if draw.ret ≠ 0 then []
          else
            match progress.cindex.store progress.currPos draw.rd with
            | .error _ => []
            | .ok cindex =>
                draw.rd.toNat :: acceptedPositions rdrand bound csize turns ⟨cindex, draw.rd, draw.rd, draw.used⟩

/-- The positions that `init_chasing_index` accepts. -/
def accepted (rdrand : Rdrand) (bound : Nat) (cindex : Cindex) (csize : Word) : List Nat :=
  match cindex.memset (8 * csize) with
  | .error _ => []
  | .ok cleared => acceptedPositions rdrand bound csize (csize - 1).toNat ⟨cleared, 0, 0, 0⟩

/-- The position that an array holds for another. -/
def successor (entries : List Word) (position : Nat) : Nat := (entries[position]?.getD 0).toNat

/-- The arrays that hold one cycle through all their positions. -/
def singleCycles (csize : Word) : Set (List Word) :=
  {entries | entries.length = csize.toNat ∧ SingleCycle (successor entries) csize.toNat}

/-- The orders of the positions other than 0. -/
def positionOrders (csize : Word) : Set (List Nat) := {order | order.Perm (List.range' 1 (csize.toNat - 1))}

/-- Every attempt succeeds, with the positions of the list in turn. -/
def drawing (order : List Nat) : Rdrand := fun k => ⟨true, BitVec.ofNat 64 (order.getD k 0)⟩

/-! # From draws to orders -/

section Accepted

variable {rdrand : Rdrand} {cindex after : Cindex} {csize : Word} {bound turns : Nat} {progress final : Progress}
variable {path : List Nat} {draw : Draw}

theorem linkPositions_turn
    (drawn : drawNext rdrand progress.cindex csize progress.currPos bound progress.nextPos progress.used = .ok draw)
    (success : draw.ret = 0) (stored : progress.cindex.store progress.currPos draw.rd = .ok after) :
    linkPositions rdrand bound csize (turns + 1) progress =
      linkPositions rdrand bound csize turns ⟨after, draw.rd, draw.rd, draw.used⟩ := by
  rw [linkPositions]
  simp only [drawn, bind, Except.bind, success, ne_eq, not_true_eq_false, if_false, stored]

theorem acceptedPositions_turn
    (drawn : drawNext rdrand progress.cindex csize progress.currPos bound progress.nextPos progress.used = .ok draw)
    (success : draw.ret = 0) (stored : progress.cindex.store progress.currPos draw.rd = .ok after) :
    acceptedPositions rdrand bound csize (turns + 1) progress =
      draw.rd.toNat :: acceptedPositions rdrand bound csize turns ⟨after, draw.rd, draw.rd, draw.used⟩ := by
  rw [acceptedPositions]
  simp only [drawn, success, stored, ne_eq, not_true_eq_false, if_false]

theorem linkPositions_accepted (linked : Linked csize progress path)
    (returned : linkPositions rdrand bound csize turns progress = .ok (0, final)) :
    (acceptedPositions rdrand bound csize turns progress).length = turns ∧
      ∃ path', Linked csize final path' ∧ final.currPos.toNat :: path' =
        (acceptedPositions rdrand bound csize turns progress).reverse ++ progress.currPos.toNat :: path := by
  induction turns generalizing progress path with
  | zero =>
      cases returned
      exact ⟨rfl, path, linked, rfl⟩
  | succ turns ih =>
      obtain ⟨draw, after, drawn, success, stored, returned⟩ := linkPositions_succ returned
      obtain ⟨length, path', linked', listed⟩ := ih (linked.extend drawn success stored) returned
      rw [acceptedPositions_turn drawn success stored]
      refine ⟨congrArg Nat.succ length, path', linked', ?_⟩
      rw [listed, List.reverse_cons, List.append_assoc]
      rfl

/-- A run that returns 0 has accepted the positions in the order of its cycle. -/
theorem accepted_cycleOrder (positive : 1 ≤ csize.toNat) (length : cindex.entries.length = csize.toNat)
    (returned : initChasingIndex rdrand bound cindex csize = .ok (0, final)) :
    accepted rdrand bound cindex csize = cycleOrder final.cindex.next csize.toNat ∧
      final.cindex.entries ∈ singleCycles csize := by
  have cycle := chasingIndex_singleCycle positive length returned
  obtain ⟨empty, cleared, returned⟩ := bind_ok.mp returned
  obtain ⟨turns, path, linked, listed⟩ := linkPositions_accepted (linked_start positive length cleared) returned
  have same : accepted rdrand bound cindex csize = cycleOrder final.cindex.next csize.toNat := by
    simp only [accepted, cleared]
    rw [cycleOrder, linked.chain.order listed, turns, turns_left positive]
  exact ⟨same, linked.length, cycle⟩

end Accepted

/-! # From orders to draws -/

section Drawing

variable {rdrand : Rdrand} {cindex after : Cindex} {csize currPos nextPos index entry : Word}
variable {bound used new : Nat} {order path : List Nat} {progress : Progress}

theorem drawNext_first (nextPos : Word) (drawn : rdrand used = ⟨true, BitVec.ofNat 64 new⟩) (inRange : new < csize.toNat)
    (length : cindex.entries.length = csize.toNat) (unlinked : cindex.next new = 0) (different : new ≠ currPos.toNat)
    (some_draw : 1 ≤ bound) :
    drawNext rdrand cindex csize currPos bound nextPos used = .ok ⟨0, BitVec.ofNat 64 new, used + 1⟩ := by
  obtain ⟨bound, rfl⟩ := Nat.exists_eq_succ_of_ne_zero (Nat.ne_of_gt some_draw)
  have value : (BitVec.ofNat 64 new).toNat = new := by
    rw [BitVec.toNat_ofNat]
    exact Nat.mod_eq_of_lt (Nat.lt_trans inRange csize.isLt)
  have nonzero : csize ≠ 0 := by
    intro zero
    rw [zero] at inRange
    exact absurd inRange (Nat.not_lt_zero new)
  have reduced : BitVec.ofNat 64 new % csize = BitVec.ofNat 64 new := by
    apply BitVec.eq_of_toNat_eq
    rw [BitVec.toNat_umod, value, Nat.mod_eq_of_lt inRange]
  have random : getRand rdrand nextPos csize used = .ok ⟨0, BitVec.ofNat 64 new, used + 1⟩ := by
    rw [getRand, RDRAND_MAX_RETRY, getRandLoop, drawn, if_pos rfl, if_neg nonzero, reduced]
  have inArray : new < cindex.entries.length := by omega
  have found : cindex.entries[new]? = some cindex.entries[new] := List.getElem?_eq_getElem inArray
  have zero : cindex.entries[new] = 0 := by
    apply BitVec.eq_of_toNat_eq
    rwa [Cindex.next, found] at unlinked
  have loaded : cindex.load (BitVec.ofNat 64 new) = .ok 0 := by
    rw [Cindex.load, value, found, zero]
  have elsewhere : BitVec.ofNat 64 new ≠ currPos := by
    intro same
    rw [← same, value] at different
    exact different rfl
  rw [drawNext, random]
  simp only [bind, Except.bind, loaded]
  rw [if_neg (by simp), if_neg (by simp [elsewhere])]
  rfl

theorem store_inside (inside : index.toNat < cindex.entries.length) : ∃ after, cindex.store index entry = .ok after := by
  rw [Cindex.store, if_pos inside]
  exact ⟨_, rfl⟩

theorem Linked.stores (linked : Linked csize progress path) (entry : Word) :
    ∃ after, progress.cindex.store progress.currPos entry = .ok after := by
  apply store_inside
  rw [linked.length]
  exact linked.below _ List.mem_cons_self

theorem memset_whole (length : cindex.entries.length = csize.toNat) :
    ∃ after, cindex.memset (8 * csize) = .ok after := by
  have fits := cindex.fits
  have whole : (8 * csize : Word).toNat / 8 ≤ cindex.entries.length := by
    have eight : (8 : Word).toNat = 8 := rfl
    rw [BitVec.toNat_mul, eight, Nat.mod_eq_of_lt (by omega)]
    omega
  rw [Cindex.memset, dif_pos whole]
  exact ⟨_, rfl⟩

/-- Fresh positions that are drawn one after the other are all accepted. -/
theorem linkPositions_drawing (some_draw : 1 ≤ bound) (linked : Linked csize progress path)
    (distinct : (order ++ progress.currPos.toNat :: path).Nodup) (below : ∀ position ∈ order, position < csize.toNat)
    (draws : ∀ k new, order[k]? = some new → rdrand (progress.used + k) = ⟨true, BitVec.ofNat 64 new⟩) :
    (∃ final, linkPositions rdrand bound csize order.length progress = .ok (0, final)) ∧
      acceptedPositions rdrand bound csize order.length progress = order := by
  induction order generalizing progress path with
  | nil => exact ⟨⟨progress, rfl⟩, rfl⟩
  | cons new rest ih =>
      have inRange := below new List.mem_cons_self
      have value : (BitVec.ofNat 64 new).toNat = new := by
        rw [BitVec.toNat_ofNat]
        exact Nat.mod_eq_of_lt (Nat.lt_trans inRange csize.isLt)
      obtain ⟨fresh, _⟩ := List.nodup_cons.mp distinct
      have outside : new ∉ progress.currPos.toNat :: path := fun member => fresh (List.mem_append_right _ member)
      rw [linked.chain.mem_iff, not_or, not_not] at outside
      have drawn := drawNext_first progress.nextPos (draws 0 new rfl) inRange linked.length outside.1
        outside.2 some_draw
      obtain ⟨after, stored⟩ := linked.stores (BitVec.ofNat 64 new)
      have linked' := linked.extend drawn rfl stored
      have distinct' : (rest ++ (BitVec.ofNat 64 new).toNat :: progress.currPos.toNat :: path).Nodup := by
        rw [value]
        exact List.perm_middle.nodup_iff.mpr distinct
      obtain ⟨finished, same⟩ := ih linked' distinct' (fun position member => below position (List.mem_cons_of_mem _ member))
        (fun k other found => by
          have later := draws (k + 1) other found
          rwa [← Nat.add_assoc, Nat.add_right_comm] at later)
      rw [List.length_cons, linkPositions_turn drawn rfl stored, acceptedPositions_turn drawn rfl stored, same, value]
      exact ⟨finished, rfl⟩

/-- Each order of the positions other than 0 is accepted in some run. -/
theorem order_accepted (positive : 1 ≤ csize.toNat) (length : cindex.entries.length = csize.toNat)
    (some_draw : 1 ≤ bound) (ordered : order ∈ positionOrders csize) :
    ∃ final, initChasingIndex (drawing order) bound cindex csize = .ok (0, final) ∧
      accepted (drawing order) bound cindex csize = order := by
  obtain ⟨cleared, set⟩ := memset_whole length
  have size : (csize - 1).toNat = order.length := by
    rw [turns_left positive, ordered.length_eq, List.length_range']
  have distinct : (order ++ [0]).Nodup := by
    have apart : (0 :: order).Nodup := by
      have distinct := ordered.nodup_iff.mpr List.nodup_range'
      refine List.nodup_cons.mpr ⟨fun member => ?_, distinct⟩
      have bound := List.mem_range'_1.mp (ordered.mem_iff.mp member)
      omega
    exact List.perm_append_comm.nodup_iff.mp apart
  have below : ∀ position ∈ order, position < csize.toNat := by
    intro position member
    have bound := List.mem_range'_1.mp (ordered.mem_iff.mp member)
    omega
  have draws : ∀ k new, order[k]? = some new → drawing order (0 + k) = ⟨true, BitVec.ofNat 64 new⟩ := by
    intro k new found
    simp only [drawing, Nat.zero_add, List.getD_eq_getElem?_getD, found, Option.getD_some]
  obtain ⟨⟨final, finished⟩, same⟩ :=
    linkPositions_drawing some_draw (linked_start positive length set) distinct below draws
  refine ⟨final, ?_, ?_⟩
  · rw [initChasingIndex, set, size]
    exact finished
  · rw [accepted, set, size]
    exact same

end Drawing

/-! # The correspondence -/

section Correspondence

variable {csize : Word} {left right : List Word}

theorem entries_eq (inCycles : left ∈ singleCycles csize) (inCycles' : right ∈ singleCycles csize)
    (same : cycleOrder (successor left) csize.toNat = cycleOrder (successor right) csize.toNat) : left = right := by
  obtain ⟨length, cycle⟩ := inCycles
  obtain ⟨length', cycle'⟩ := inCycles'
  apply List.ext_getElem (length.trans length'.symm)
  intro position inLeft inRight
  have equal := cycle.unique cycle' same (length ▸ inLeft)
  simp only [successor, List.getElem?_eq_getElem inLeft, List.getElem?_eq_getElem inRight, Option.getD_some] at equal
  exact BitVec.eq_of_toNat_eq equal

theorem positionOrders_card (csize : Word) : (positionOrders csize).ncard = (csize.toNat - 1).factorial := by
  have listed : positionOrders csize = ((List.range' 1 (csize.toNat - 1)).permutations.toFinset : Set (List Nat)) := by
    ext order
    simp [positionOrders]
  rw [listed, Set.ncard_coe_finset, List.toFinset_card_of_nodup, List.length_permutations, List.length_range']
  exact List.nodup_permutations _ List.nodup_range'

theorem cycleOrder_bijOn (positive : 1 ≤ csize.toNat) (fits : 8 * csize.toNat < 2 ^ 64) :
    Set.BijOn (fun entries => cycleOrder (successor entries) csize.toNat) (singleCycles csize)
      (positionOrders csize) := by
  refine ⟨fun entries inCycles => inCycles.2.order_perm positive, fun left inCycles right inCycles' same =>
    entries_eq inCycles inCycles' same, fun order ordered => ?_⟩
  let cindex : Cindex := ⟨List.replicate csize.toNat 0, by rwa [List.length_replicate]⟩
  have length : cindex.entries.length = csize.toNat := List.length_replicate
  obtain ⟨final, returned, drawn⟩ := order_accepted positive length (Nat.le_refl 1) ordered
  obtain ⟨same, inCycles⟩ := accepted_cycleOrder positive length returned
  exact ⟨final.cindex.entries, inCycles, same.symm.trans drawn⟩

end Correspondence

/-- Every cycle through the whole array is made by some draws, from one order
of accepted positions, and there are as many cycles as such orders. -/
theorem chasingIndex_complete (cindex : Cindex) (csize : Word) (positive : 1 ≤ csize.toNat)
    (length : cindex.entries.length = csize.toNat) :
    (∀ entries ∈ singleCycles csize, ∃ rdrand, ∀ bound, 1 ≤ bound → ∃ final,
      initChasingIndex rdrand bound cindex csize = .ok (0, final) ∧ final.cindex.entries = entries) ∧
    (∀ rdrand rdrand' bound bound' final final',
      initChasingIndex rdrand bound cindex csize = .ok (0, final) →
      initChasingIndex rdrand' bound' cindex csize = .ok (0, final') →
      (final.cindex.entries = final'.cindex.entries ↔
        accepted rdrand bound cindex csize = accepted rdrand' bound' cindex csize)) ∧
    {order | ∃ rdrand bound final, initChasingIndex rdrand bound cindex csize = .ok (0, final) ∧
      accepted rdrand bound cindex csize = order} = positionOrders csize ∧
    (positionOrders csize).ncard = (csize.toNat - 1).factorial ∧
    (singleCycles csize).ncard = (csize.toNat - 1).factorial := by
  have fits : 8 * csize.toNat < 2 ^ 64 := length ▸ cindex.fits
  have correspond := cycleOrder_bijOn positive fits
  refine ⟨?_, ?_, ?_, positionOrders_card csize, ?_⟩
  · intro entries inCycles
    refine ⟨drawing (cycleOrder (successor entries) csize.toNat), fun bound some_draw => ?_⟩
    obtain ⟨final, returned, drawn⟩ := order_accepted positive length some_draw (correspond.mapsTo inCycles)
    obtain ⟨same, inCycles'⟩ := accepted_cycleOrder positive length returned
    exact ⟨final, returned, entries_eq inCycles' inCycles (same.symm.trans drawn)⟩
  · intro rdrand rdrand' bound bound' final final' returned returned'
    obtain ⟨order, inCycles⟩ := accepted_cycleOrder positive length returned
    obtain ⟨order', inCycles'⟩ := accepted_cycleOrder positive length returned'
    rw [order, order']
    apply Iff.intro
    · intro same
      exact congrArg (fun entries => cycleOrder (successor entries) csize.toNat) same
    · exact entries_eq inCycles inCycles'
  · ext order
    apply Iff.intro
    · intro found
      obtain ⟨rdrand, bound, final, returned, rfl⟩ := found
      obtain ⟨same, inCycles⟩ := accepted_cycleOrder positive length returned
      rw [same]
      exact correspond.mapsTo inCycles
    · intro ordered
      obtain ⟨final, returned, drawn⟩ := order_accepted positive length (Nat.le_refl 1) ordered
      exact ⟨drawing order, 1, final, returned, drawn⟩
  · rw [correspond.ncard_eq, positionOrders_card]

/-- An array of four entries: six cycles. -/
theorem chasingIndex_complete_four : (∃ rdrand, ∀ bound, 1 ≤ bound → ∃ final,
      initChasingIndex rdrand bound ⟨[7, 7, 7, 7], by decide⟩ 4 = .ok (0, final) ∧
        final.cindex.entries = [2, 0, 3, 1]) ∧
    (singleCycles 4).ncard = (4 - 1).factorial := by
  obtain ⟨reached, _, _, _, count⟩ := chasingIndex_complete ⟨[7, 7, 7, 7], by decide⟩ 4 (by decide) rfl
  have first : ∀ steps < 4, 0 < steps → (successor [2, 0, 3, 1])^[steps] 0 ≠ 0 := by decide
  have cycle : SingleCycle (successor [2, 0, 3, 1]) 4 :=
    ⟨by decide, rfl, fun steps positive within => first steps within positive⟩
  exact ⟨reached [2, 0, 3, 1] ⟨rfl, cycle⟩, count⟩

end RwSep.MemAccess
