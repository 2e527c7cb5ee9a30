import RwSep.MemAccess.Stride

namespace RwSep.MemAccess

open RwSep.Data RwSep.X86

/-! Which bytes the strided stores touch.

The last line of a turn may reach past the access size, up to the next
multiple of 64.  When the stride has room for that, all turns together stay
within `count` strides from the start address.
-/

/-- The byte belongs to an access of some run of the code. -/
def Touches (code : Code) (byte : Word) : Prop :=
  ∃ before after events, Exec code before after ∧ after.data.trace = before.data.trace ++ events ∧
    ∃ event ∈ events, byte ∈ event.footprint

/-- A positive count, and an access size that fits the stride in whole lines. -/
structure StrideArgs.Spaced (args : StrideArgs) : Prop where
  counted : 1 ≤ args.count.toInt
  accessed : 1 ≤ args.size.toInt
  wide : (args.size.toInt + 63) / 64 * 64 ≤ args.skip.toInt
  fits : args.count.toInt * args.skip.toInt < 2 ^ 63

structure OnLine (events : Word → List Event) : Prop where
  inside : ∀ line, ∀ event ∈ events line, ∀ byte ∈ event.footprint, byte ∈ Range.mk line 64
  aligned : ∀ line : Word, 64 ∣ line.toNat → ∀ event ∈ events line, event.Aligned

theorem onLine_single {access : Word → Event} (footprint : ∀ line, (access line).footprint = ⟨line, 64⟩)
    (aligned : ∀ line : Word, 64 ∣ line.toNat → (access line).Aligned) : OnLine fun line => [access line] where
  inside line event member byte touched := by
    cases List.mem_singleton.mp member
    rwa [footprint] at touched
  aligned line whole event member := by
    cases List.mem_singleton.mp member
    exact aligned line whole

theorem onLine_nt : OnLine fun line => [.ntStore line] := onLine_single (fun _ => rfl) fun _ whole => whole

theorem onLine_storeclwb : OnLine fun line => [.store line 64, .clwb line] where
  inside line event member byte touched := by
    rcases List.mem_cons.mp member with rfl | member
    · exact touched
    · cases List.mem_singleton.mp member
      exact Nat.lt_of_lt_of_le touched (Nat.succ_pos 63)
  aligned line whole event member := by
    rcases List.mem_cons.mp member with rfl | member
    · exact fun _ => whole
    · cases List.mem_singleton.mp member
      trivial

variable {args : StrideArgs} {events : Word → List Event} {access : List Instr} {before after : State}

theorem mem_lines {line : Word} : line ∈ args.lines ↔
    ∃ i < turns args.count 1, ∃ j < turns args.size 64, line = args.line i j := by
  simp only [StrideArgs.lines, StrideArgs.block, List.mem_flatMap, List.mem_map, List.mem_range]
  apply Iff.intro
  · intro found
    obtain ⟨i, bound, j, bound', rfl⟩ := found
    exact ⟨i, bound, j, bound', rfl⟩
  · intro found
    obtain ⟨i, bound, j, bound', rfl⟩ := found
    exact ⟨i, bound, j, bound', rfl⟩

theorem line_offset (i j : Nat) : args.line i j = args.startAddr + BitVec.ofNat 64 (i * args.skip.toNat + 64 * j) := by
  have offset : BitVec.ofNat 64 (i * args.skip.toNat) = BitVec.ofNat 64 i * args.skip := by
    rw [BitVec.ofNat_mul, BitVec.ofNat_toNat, BitVec.setWidth_eq]
  rw [StrideArgs.line, BitVec.ofNat_add, offset, BitVec.add_assoc]

namespace StrideArgs.Spaced

theorem skip_le (spaced : args.Spaced) : args.skip.toInt ≤ args.count.toInt * args.skip.toInt := by
  have counted := spaced.counted
  have accessed := spaced.accessed
  have wide := spaced.wide
  exact le_mul_of_one_le_left (by omega) counted

theorem room (spaced : args.Spaced) : args.size.toInt + 64 ≤ 2 ^ 63 := by
  have wide := spaced.wide
  have fits := spaced.fits
  have skip := spaced.skip_le
  omega

/-- The total number of bytes, computed in the source as a product of two `long`. -/
theorem values (spaced : args.Spaced) :
    (args.count.toNat : Int) = args.count.toInt ∧ (args.skip.toNat : Int) = args.skip.toInt := by
  have counted := spaced.counted
  have accessed := spaced.accessed
  have wide := spaced.wide
  exact ⟨Word.toNat_eq_toInt (by omega), Word.toNat_eq_toInt (by omega)⟩

theorem total (spaced : args.Spaced) : (args.count * args.skip).toNat = args.count.toNat * args.skip.toNat ∧
    args.count.toNat * args.skip.toNat < 2 ^ 63 := by
  have fits := spaced.fits
  obtain ⟨count, skip⟩ := spaced.values
  rw [← count, ← skip] at fits
  have bound : args.count.toNat * args.skip.toNat < 2 ^ 63 := by exact_mod_cast fits
  refine ⟨?_, bound⟩
  rw [BitVec.toNat_mul, Nat.mod_eq_of_lt (Nat.lt_trans bound (by decide))]

theorem line_inside (spaced : args.Spaced) {i j : Nat} (bound : i < turns args.count 1)
    (bound' : j < turns args.size 64) :
    (Range.mk (args.line i j) 64).Inside ⟨args.startAddr, (args.count * args.skip).toNat⟩ := by
  have counted := spaced.counted
  have accessed := spaced.accessed
  have wide := spaced.wide
  obtain ⟨total, fits⟩ := spaced.total
  obtain ⟨count, skip⟩ := spaced.values
  have turn : i + 1 ≤ args.count.toNat := by
    have := turns_one args.count
    omega
  have strides : i * args.skip.toNat + args.skip.toNat ≤ args.count.toNat * args.skip.toNat := by
    rw [← Nat.succ_mul]
    exact Nat.mul_le_mul_right _ turn
  have last : 64 * j + 64 ≤ args.skip.toNat := by
    unfold turns at bound'
    omega
  rw [line_offset]
  apply Range.inside_of_offset ⟨args.startAddr, (args.count * args.skip).toNat⟩
  · change _ ≤ (args.count * args.skip).toNat
    omega
  · change (args.count * args.skip).toNat < _
    omega

end StrideArgs.Spaced

theorem line_aligned (start : 64 ∣ args.startAddr.toNat) (stride : 64 ∣ args.skip.toNat) (i j : Nat) :
    64 ∣ (args.line i j).toNat := by
  have offset : 64 ∣ (BitVec.ofNat 64 i * args.skip).toNat := by
    rw [BitVec.toNat_mul]
    exact (Nat.dvd_mod_iff (by decide)).mpr (Dvd.dvd.mul_left stride _)
  rw [StrideArgs.line, BitVec.toNat_add, BitVec.toNat_add, BitVec.toNat_ofNat]
  omega

theorem strided_events (advances : Advances access (stored events))
    (ran : Exec (strided access .mfence args) before after) {trace : List Event}
    (traced : after.data.trace = before.data.trace ++ trace) {event : Event} (member : event ∈ trace) :
    event = .mfence ∨ ∃ line ∈ args.lines, event ∈ events line := by
  obtain ⟨_, _, traced'⟩ := (strided_ends before advances).result ran
  rw [List.append_cancel_left (traced.symm.trans traced')] at member
  obtain ⟨turn, inRange, member⟩ := List.mem_flatMap.mp member
  rcases List.mem_append.mp member with access | fence
  · obtain ⟨line, inBlock, touched⟩ := List.mem_flatMap.mp access
    exact .inr ⟨line, List.mem_flatMap.mpr ⟨turn, inRange, inBlock⟩, touched⟩
  · exact .inl (List.mem_singleton.mp fence)

theorem strided_touches (advances : Advances access (stored events)) (onLine : OnLine events)
    (spaced : args.Spaced) {byte : Word} (touched : Touches (strided access .mfence args) byte) :
    byte ∈ Range.mk args.startAddr (args.count * args.skip).toNat := by
  obtain ⟨before, after, trace, ran, traced, event, member, inside⟩ := touched
  rcases strided_events advances ran traced member with rfl | found
  · exact absurd inside (Nat.not_lt_zero _)
  · obtain ⟨line, inLines, access⟩ := found
    obtain ⟨i, bound, j, bound', rfl⟩ := mem_lines.mp inLines
    apply (spaced.line_inside bound bound').mem
    · exact Nat.le_of_lt (BitVec.isLt _)
    · exact onLine.inside _ event access byte inside

theorem strided_frame (advances : Advances access (stored events)) (spaced : args.Spaced)
    (ran : Exec (strided access .mfence args) before after) {byte : Word}
    (outside : byte ∉ Range.mk args.startAddr (args.count * args.skip).toNat) :
    after.data.memory byte = before.data.memory byte := by
  obtain ⟨_, written, _⟩ := (strided_ends before advances).result ran
  rw [written]
  apply Memory.writeLines_uncovered
  apply Memory.lastCovering_eq_none
  intro line inLines inside
  obtain ⟨i, bound, j, bound', rfl⟩ := mem_lines.mp inLines
  exact outside ((spaced.line_inside bound bound').mem (Nat.le_of_lt (BitVec.isLt _)) inside)

theorem strided_aligned (advances : Advances access (stored events)) (onLine : OnLine events)
    (start : 64 ∣ args.startAddr.toNat) (stride : 64 ∣ args.skip.toNat)
    (ran : Exec (strided access .mfence args) before after) {trace : List Event}
    (traced : after.data.trace = before.data.trace ++ trace) {event : Event} (member : event ∈ trace) :
    event.Aligned := by
  rcases strided_events advances ran traced member with rfl | found
  · trivial
  · obtain ⟨line, inLines, access⟩ := found
    obtain ⟨i, _, j, _, rfl⟩ := mem_lines.mp inLines
    exact onLine.aligned _ (line_aligned start stride i j) event access

end RwSep.MemAccess
