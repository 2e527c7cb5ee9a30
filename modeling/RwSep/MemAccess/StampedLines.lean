import RwSep.MemAccess.StrideKernels
import RwSep.MemAccess.Footprint
import RwSep.X86.Threads

namespace RwSep.MemAccess

open RwSep.Data RwSep.Execution RwSep.X86

/-! What the strided stores leave behind, as threads of one memory.

Each line of a thread takes one store of the thread's `zmm0`, whose low half is
the start address and eight bytes of zeros.
-/

/-- Accesses that store to the whole of a line, once, and load nothing. -/
structure StoresLine (events : Word → List Event) : Prop where
  stores : ∀ line byte, StoresAny (events line) byte ↔ byte ∈ Range.mk line 64
  loads : ∀ line byte, ¬ LoadsAny (events line) byte
  once : ∀ line, StoresOnce (events line)

theorem storesLine_nt : StoresLine fun line => [.ntStore line] where
  stores _ _ := storesAny_single
  loads line byte loaded := by
    obtain ⟨event, member, loads⟩ := loaded
    cases List.mem_singleton.mp member
    exact loads
  once _ := List.pairwise_singleton _ _

theorem storesLine_storeclwb : StoresLine fun line => [.store line 64, .clwb line] where
  stores line byte := by
    apply Iff.intro
    · intro found
      obtain ⟨event, member, stores⟩ := found
      rcases List.mem_pair.mp member with rfl | rfl
      · exact stores
      · exact stores.elim
    · intro inside
      exact ⟨_, List.mem_cons_self, inside⟩
  loads line byte loaded := by
    obtain ⟨event, member, loads⟩ := loaded
    rcases List.mem_pair.mp member with rfl | rfl
    · exact loads
    · exact loads
  once line := by
    apply List.pairwise_pair.mpr
    intro byte _ stores
    exact stores

variable {args : StrideArgs} {events : Word → List Event} {access : List Instr} {registers : Registers}
variable {memory : Memory} {final : State} {line byte : Word}

theorem lines_apart (spaced : args.Spaced) :
    args.lines.Pairwise fun line later => (Range.mk line 64).Disjoint ⟨later, 64⟩ := by
  have counted := spaced.counted
  have accessed := spaced.accessed
  have wide := spaced.wide
  have total := spaced.total.2
  have value := (spaced.values).2
  have size := Word.toNat_eq_toInt (Int.le_trans Int.one_nonneg accessed)
  have positive : 0 < args.count.toNat := by
    have := spaced.values.1
    omega
  have last : (args.count.toNat - 1) * args.skip.toNat + args.skip.toNat = args.count.toNat * args.skip.toNat := by
    rw [← Nat.succ_mul]
    congr 1
    omega
  rw [StrideArgs.lines, turns_count counted, funext (block_eq accessed)]
  apply lines_disjoint <;> omega

theorem writeLines_at {lines : List Word} (stamp : Line)
    (apart : lines.Pairwise fun line later => (Range.mk line 64).Disjoint ⟨later, 64⟩) (member : line ∈ lines)
    (lane : Fin 64) : memory.writeLines stamp lines (line + BitVec.ofNat 64 lane) = stamp lane := by
  induction lines using List.reverseRecOn with
  | nil => contradiction
  | append_singleton earlier last ih =>
      obtain ⟨apartEarlier, _, apartLast⟩ := List.pairwise_append.mp apart
      rw [Memory.writeLines_append]
      change (memory.writeLines stamp earlier).writeLine last stamp _ = _
      rcases List.mem_append.mp member with before | now
      · have inside : line + BitVec.ofNat 64 lane ∈ Range.mk line 64 := Memory.lane_mem lane.isLt (by decide)
        rw [Memory.writeLine_outside (apartLast line before last (List.mem_singleton_self _) _ inside)]
        exact ih apartEarlier before
      · cases List.mem_singleton.mp now
        exact Memory.writeLine_inside

/-- The value that a thread stores to each of its lines. -/
def stamp (registers : Registers) (args : StrideArgs) : Line := (registers.zmm zmm0).setLow args.startAddr

/-- A thread's events: line after line, with a fence after each block. -/
def strideTrace (events : Word → List Event) (args : StrideArgs) : List Event :=
  (List.range (turns args.count 1)).flatMap fun turn => (args.block turn).flatMap events ++ [.mfence]

theorem strided_alone (registers : Registers) (memory : Memory) (advances : Advances access (stored events))
    (room : args.size.toInt + 64 ≤ 2 ^ 63) :
    ∃ final, Exec (strided access .mfence args) (registers.state memory) final ∧
      final.data.memory = memory.writeLines (stamp registers args) args.lines ∧
      final.data.trace = strideTrace events args := by
  obtain ⟨final, ran, _, written, traced⟩ := (strided_ends (registers.state memory) advances).ends room
  exact ⟨final, ran, written, traced⟩

theorem mem_strideTrace {event : Event} : event ∈ strideTrace events args →
    event = .mfence ∨ ∃ line ∈ args.lines, event ∈ events line := by
  intro member
  obtain ⟨turn, inRange, member⟩ := List.mem_flatMap.mp member
  rcases List.mem_append.mp member with access | fence
  · obtain ⟨line, inBlock, touched⟩ := List.mem_flatMap.mp access
    exact .inr ⟨line, List.mem_flatMap.mpr ⟨turn, inRange, inBlock⟩, touched⟩
  · exact .inl (List.mem_singleton.mp fence)

theorem strideTrace_loads (storesLine : StoresLine events) : ¬ LoadsAny (strideTrace events args) byte := by
  intro loaded
  obtain ⟨event, member, loads⟩ := loaded
  rcases mem_strideTrace member with rfl | found
  · exact loads
  · obtain ⟨line, _, touched⟩ := found
    exact storesLine.loads line byte ⟨event, touched, loads⟩

theorem strideTrace_stores (storesLine : StoresLine events) :
    StoresAny (strideTrace events args) byte ↔ ∃ line ∈ args.lines, byte ∈ Range.mk line 64 := by
  apply Iff.intro
  · intro stored
    obtain ⟨event, member, stores⟩ := stored
    rcases mem_strideTrace member with rfl | found
    · exact stores.elim
    · obtain ⟨line, inLines, touched⟩ := found
      exact ⟨line, inLines, (storesLine.stores line byte).mp ⟨event, touched, stores⟩⟩
  · intro found
    obtain ⟨line, inLines, inside⟩ := found
    obtain ⟨turn, inRange, inBlock⟩ := List.mem_flatMap.mp inLines
    obtain ⟨event, touched, stores⟩ := (storesLine.stores line byte).mpr inside
    refine ⟨event, List.mem_flatMap.mpr ⟨turn, inRange, ?_⟩, stores⟩
    exact List.mem_append_left _ (List.mem_flatMap.mpr ⟨line, inBlock, touched⟩)

theorem storesOnce_flatMap {α : Type} {items : List α} {emitted : α → List Event} (target : α → Word → Prop)
    (once : ∀ item ∈ items, StoresOnce (emitted item))
    (inside : ∀ item ∈ items, ∀ byte, StoresAny (emitted item) byte → target item byte)
    (apart : items.Pairwise fun item later => ∀ byte, target item byte → ¬ target later byte) :
    StoresOnce (items.flatMap emitted) := by
  apply List.pairwise_flatMap.mpr
  apply And.intro once
  apply List.Pairwise.imp_of_mem _ apart
  intro item later member member' disjoint event touched event' touched' byte stores stores'
  exact disjoint byte (inside item member byte ⟨event, touched, stores⟩)
    (inside later member' byte ⟨event', touched', stores'⟩)

theorem strideTrace_once (storesLine : StoresLine events) (spaced : args.Spaced) :
    StoresOnce (strideTrace events args) := by
  obtain ⟨inBlocks, between⟩ := List.pairwise_flatMap.mp (lines_apart spaced)
  have block : ∀ turn ∈ List.range (turns args.count 1), StoresOnce ((args.block turn).flatMap events) := by
    intro turn inRange
    exact storesOnce_flatMap (fun line byte => byte ∈ Range.mk line 64) (fun line _ => storesLine.once line)
      (fun line _ byte => (storesLine.stores line byte).mp) (inBlocks turn inRange)
  have stores : ∀ turn byte, StoresAny ((args.block turn).flatMap events ++ [.mfence]) byte →
      ∃ line ∈ args.block turn, byte ∈ Range.mk line 64 := by
    intro turn byte stored
    rcases storesAny_append.mp stored with access | fence
    · obtain ⟨event, member, stores⟩ := access
      obtain ⟨line, inBlock, touched⟩ := List.mem_flatMap.mp member
      exact ⟨line, inBlock, (storesLine.stores line byte).mp ⟨event, touched, stores⟩⟩
    · exact (storesAny_single.mp fence).elim
  apply storesOnce_flatMap fun turn byte => ∃ line ∈ args.block turn, byte ∈ Range.mk line 64
  · intro turn inRange
    apply List.pairwise_append.mpr ⟨block turn inRange, List.pairwise_singleton _ _, _⟩
    intro event _ later fence byte _ stores
    cases List.mem_singleton.mp fence
    exact stores
  · exact fun turn _ byte => stores turn byte
  · apply between.imp
    intro turn later disjoint byte found found'
    obtain ⟨line, inBlock, inside⟩ := found
    obtain ⟨line', inBlock', inside'⟩ := found'
    exact disjoint line inBlock line' inBlock' byte inside inside'

/-! # Threads together -/

def StrideArgs.Covers (args : StrideArgs) (byte : Word) : Prop := ∃ line ∈ args.lines, byte ∈ Range.mk line 64

theorem covers_lane (member : line ∈ args.lines) (lane : Fin 64) : args.Covers (line + BitVec.ofNat 64 lane) :=
  ⟨line, member, Memory.lane_mem lane.isLt (by decide)⟩

theorem writeLines_uncovered (stamp : Line) (uncovered : ¬ args.Covers byte) :
    memory.writeLines stamp args.lines byte = memory byte := by
  apply Memory.writeLines_uncovered
  apply Memory.lastCovering_eq_none
  intro line member inside
  exact uncovered ⟨line, member, inside⟩

section Threads

variable {ι : Type} {code : ι → Code} {args : ι → StrideArgs} {events : ι → Word → List Event}
variable {registers : ι → Registers} {memory : Memory}

/-- Threads that each run a strided store. -/
structure StridedStores (code : ι → Code) (args : ι → StrideArgs) (events : ι → Word → List Event) : Prop where
  kernel : ∀ thread, ∃ access, Advances access (stored (events thread)) ∧
    code thread = strided access .mfence (args thread)
  storesLine : ∀ thread, StoresLine (events thread)
  spaced : ∀ thread, (args thread).Spaced

theorem StridedStores.alone (stores : StridedStores code args events) (registers : ι → Registers) (memory : Memory) :
    ∃ finals, EndsAlone code registers memory finals ∧ ∀ thread,
      (finals thread).data.memory = memory.writeLines (stamp (registers thread) (args thread)) (args thread).lines ∧
      (finals thread).data.trace = strideTrace (events thread) (args thread) := by
  have each : ∀ thread, ∃ final, Exec (code thread) ((registers thread).state memory) final ∧
      final.data.memory = memory.writeLines (stamp (registers thread) (args thread)) (args thread).lines ∧
      final.data.trace = strideTrace (events thread) (args thread) := by
    intro thread
    obtain ⟨access, advances, same⟩ := stores.kernel thread
    rw [same]
    exact strided_alone _ memory advances (stores.spaced thread).room
  choose finals ran left using each
  exact ⟨finals, ran, left⟩

variable [DecidableEq ι] {schedule : List ι} {now done : Pool ι Core Word Byte Event}

/-- What the threads have left once all have ended. -/
structure Stamped (args : ι → StrideArgs) (events : ι → Word → List Event) (registers : ι → Registers) (memory : Memory)
    (done : Pool ι Core Word Byte Event) : Prop where
  traces : ∀ thread, eventsOf thread done.log = strideTrace (events thread) (args thread)
  single : ∀ thread byte, (∀ other, other ≠ thread → ¬ (args other).Covers byte) →
    done.store byte = memory.writeLines (stamp (registers thread) (args thread)) (args thread).lines byte
  raced : ∀ thread byte, (args thread).Covers byte → ∃ other, (args other).Covers byte ∧
    done.store byte = memory.writeLines (stamp (registers other) (args other)) (args other).lines byte

theorem StridedStores.stamped (stores : StridedStores code args events)
    (complete : (startThreads registers memory).Complete (threadSteps code) schedule done) :
    Stamped args events registers memory done := by
  obtain ⟨finals, alone, left⟩ := stores.alone registers memory
  have traced : ∀ thread, (finals thread).data.trace = strideTrace (events thread) (args thread) :=
    fun thread => (left thread).2
  have covers : ∀ thread byte, StoresAny (finals thread).data.trace byte ↔ (args thread).Covers byte := by
    intro thread byte
    rw [traced]
    exact strideTrace_stores (stores.storesLine thread)
  have unraced : Unraced finals := by
    intro thread other _ byte loaded
    rw [traced] at loaded
    exact absurd loaded (strideTrace_loads (stores.storesLine thread))
  have finished := threads_finished alone unraced complete
  constructor
  · intro thread
    rw [finished.traces, traced]
  · intro thread byte alone
    rw [← (left thread).1]
    apply finished.single
    intro other different stored
    exact alone other different ((covers other byte).mp stored)
  · intro thread byte covered
    have once : ∀ thread, StoresOnce (finals thread).data.trace := by
      intro thread
      rw [traced]
      exact strideTrace_once (stores.storesLine thread) (stores.spaced thread)
    obtain ⟨other, stored, same⟩ := finished.raced once thread byte ((covers thread byte).mpr covered)
    exact ⟨other, (covers other byte).mp stored, by rw [same, (left other).1]⟩

theorem StridedStores.everyOrderEnds [Fintype ι] (stores : StridedStores code args events) (registers : ι → Registers)
    (memory : Memory) : (startThreads registers memory).EveryOrderEnds (threadSteps code) := by
  obtain ⟨finals, alone, left⟩ := stores.alone registers memory
  have unraced : Unraced finals := by
    intro thread other _ byte loaded
    rw [(left thread).2] at loaded
    exact absurd loaded (strideTrace_loads (stores.storesLine thread))
  obtain ⟨lengths, _, ends⟩ := threads_end alone
  exact ends.everyOrderEnds (threads_independent alone unraced)

end Threads

end RwSep.MemAccess
