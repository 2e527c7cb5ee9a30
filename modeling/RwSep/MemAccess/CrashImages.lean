import RwSep.Data.Lists
import RwSep.Execution.Crash
import RwSep.MemAccess.StampedLines
import RwSep.X86.Persistency

namespace RwSep.X86

open RwSep.Data RwSep.Execution

/-- `clwb` and `clflush` write a line back, word by word.  A non-temporal store
of a line goes to memory by itself. -/
def Event.Persists (word : Nat) : Event → Prop
  | .clwb address => lineOf address = word / 8
  | .clflush address => lineOf address = word / 8
  | .ntStore address => lineOf address = word / 8
  | _ => False

/-- What reaches persistent memory at once is an aligned word of eight bytes. -/
def persistence : Persistence Nat Word Event := ⟨wordOf, Event.Persists, Event.Fences⟩

end RwSep.X86

namespace RwSep.MemAccess

open RwSep.Data RwSep.Execution RwSep.X86

/-! What a crash leaves of the strided stores, at whatever moment it comes.

All lines before a thread's last fence are in persistent memory, of the lines of
the block that was under way each word is there or not, and no later line has
changed.
-/

/-- Accesses that store to a whole line at once, and behind it bring the line to persistent memory. -/
structure PersistsLine (events : Word → List Event) : Prop where
  whole : ∀ line, ∀ event ∈ events line, ∀ byte, event.Stores byte → ∀ other ∈ Range.mk line 64, event.Stores other
  unfenced : ∀ line, ∀ event ∈ events line, ¬ event.Fences
  flush : ∀ line, ∃ before flush after, events line = before ++ flush :: after ∧
    (∀ word, word / 8 = lineOf line → flush.Persists word) ∧
    ∀ byte ∈ Range.mk line 64, StoresAny (before ++ [flush]) byte

theorem persistsLine_nt : PersistsLine fun line => [.ntStore line] where
  whole line event member byte _ other inside := by
    cases List.mem_singleton.mp member
    exact inside
  unfenced line event member := by
    cases List.mem_singleton.mp member
    exact id
  flush line := ⟨[], .ntStore line, [], rfl, fun _ same => same.symm, fun _ inside => storesAny_single.mpr inside⟩

theorem persistsLine_storeclwb : PersistsLine fun line => [.store line 64, .clwb line] where
  whole line event member byte stores other inside := by
    rcases List.mem_pair.mp member with rfl | rfl
    · exact inside
    · exact stores.elim
  unfenced line event member := by
    rcases List.mem_pair.mp member with rfl | rfl
    · exact id
    · exact id
  flush line := ⟨[.store line 64], .clwb line, [], rfl, fun _ same => same.symm, fun _ inside => ⟨_, List.mem_cons_self, inside⟩⟩

section Lines

variable {args : StrideArgs} {events : Word → List Event} {reached : List Event} {line : Word} {turn : Nat}

/-- No byte is in two of the lines. -/
theorem lines_eq (spaced : args.Spaced) {other byte : Word} (member : line ∈ args.lines) (member' : other ∈ args.lines)
    (inside : byte ∈ Range.mk line 64) (inside' : byte ∈ Range.mk other 64) : line = other := by
  have symmetric : Std.Symm fun line later : Word => (Range.mk line 64).Disjoint ⟨later, 64⟩ :=
    ⟨fun _ _ disjoint => Range.Disjoint.symm disjoint⟩
  by_contra different
  exact (lines_apart spaced).forall member member' different byte inside inside'

/-- How many blocks have been fenced. -/
def fencedTurns (reached : List Event) : Nat := reached.countP fun event => event.Fences

theorem fencedTurns_split (persists : PersistsLine events) (inFront : reached <+: strideTrace events args) :
    ∃ part, reached = ((List.range (turns args.count 1)).take (fencedTurns reached)).flatMap
        (fun turn => (args.block turn).flatMap events ++ [.mfence]) ++ part ∧
      (part = [] ∨ ∃ next, (List.range (turns args.count 1))[fencedTurns reached]? = some next ∧
        part <+: (args.block next).flatMap events) := by
  apply prefix_fenced rfl
  · intro turn event member
    obtain ⟨line, _, touched⟩ := List.mem_flatMap.mp member
    simpa using persists.unfenced line event touched
  · exact inFront

theorem fencedTurns_whole (args : StrideArgs) (persists : PersistsLine events) :
    fencedTurns (strideTrace events args) = turns args.count 1 := by
  have block : ∀ turn, fencedTurns ((args.block turn).flatMap events ++ [.mfence]) = 1 := by
    intro turn
    have unfenced : fencedTurns ((args.block turn).flatMap events) = 0 := by
      apply List.countP_eq_zero.mpr
      intro event member
      obtain ⟨line, _, touched⟩ := List.mem_flatMap.mp member
      simpa using persists.unfenced line event touched
    rw [fencedTurns, List.countP_append]
    change fencedTurns _ + 1 = 1
    rw [unfenced]
  rw [fencedTurns, strideTrace, List.countP_flatMap]
  change ((List.range _).map fun turn => fencedTurns ((args.block turn).flatMap events ++ [.mfence])).sum = _
  simp [block]

/-- The flush of a line of a fenced block, what the thread had done before it, and a fence after it. -/
theorem flush_of_fenced (persists : PersistsLine events) (inFront : reached <+: strideTrace events args)
    (inTurns : turn < turns args.count 1) (fenced : turn < fencedTurns reached) (member : line ∈ args.block turn) :
    ∃ before flush middle after, reached = before ++ flush :: (middle ++ .mfence :: after) ∧
      (∀ word, word / 8 = lineOf line → flush.Persists word) ∧
      ∀ byte ∈ Range.mk line 64, StoresAny (before ++ [flush]) byte := by
  obtain ⟨part, same, _⟩ := fencedTurns_split persists inFront
  have inFenced : turn ∈ (List.range (turns args.count 1)).take (fencedTurns reached) := by
    rw [List.take_range, List.mem_range]
    omega
  obtain ⟨earlier, later, split⟩ := List.append_of_mem inFenced
  obtain ⟨left, right, splitBlock⟩ := List.append_of_mem member
  obtain ⟨before, flush, after, splitLine, flushes, stored⟩ := persists.flush line
  let blocks := fun turns : List Nat => turns.flatMap fun turn => (args.block turn).flatMap events ++ [Event.mfence]
  refine ⟨blocks earlier ++ left.flatMap events ++ before, flush, after ++ right.flatMap events, blocks later ++ part,
    ?_, flushes, fun byte inside => ?_⟩
  · rw [same, split, List.flatMap_append, List.flatMap_cons, splitBlock, List.flatMap_append, List.flatMap_cons, splitLine]
    simp [blocks, List.append_assoc]
  · rw [List.append_assoc]
    exact storesAny_append.mpr (.inr (stored byte inside))

/-- Nothing has been stored to the lines of the blocks behind the one under way. -/
theorem unstored_ahead (storesLine : StoresLine events) (persists : PersistsLine events) (spaced : args.Spaced)
    (inFront : reached <+: strideTrace events args) (inTurns : turn < turns args.count 1)
    (ahead : fencedTurns reached < turn) (member : line ∈ args.block turn) {byte : Word} (inside : byte ∈ Range.mk line 64) :
    ¬ StoresAny reached byte := by
  obtain ⟨part, same, found⟩ := fencedTurns_split persists inFront
  have apart := (List.pairwise_flatMap.mp (lines_apart spaced)).2
  have elsewhere : ∀ earlier < turn, ∀ other ∈ args.block earlier, byte ∉ Range.mk other 64 := by
    intro earlier before other member'
    have disjoint := List.pairwise_iff_getElem.mp apart earlier turn (by simp; omega) (by simpa using inTurns) before
    simp only [List.getElem_range] at disjoint
    exact fun inside' => disjoint other member' line member byte inside' inside
  have unstored : ∀ earlier < turn, ∀ event ∈ (args.block earlier).flatMap events, ¬ event.Stores byte := by
    intro earlier before event touched stores
    obtain ⟨other, member', touched⟩ := List.mem_flatMap.mp touched
    exact elsewhere earlier before other member' ((storesLine.stores other byte).mp ⟨event, touched, stores⟩)
  intro stored
  obtain ⟨event, touched, stores⟩ := stored
  rw [same] at touched
  rcases List.mem_append.mp touched with fenced | underway
  · obtain ⟨earlier, inFenced, touched⟩ := List.mem_flatMap.mp fenced
    rw [List.take_range, List.mem_range] at inFenced
    rcases List.mem_append.mp touched with access | fence
    · exact unstored earlier (by omega) event access stores
    · cases List.mem_singleton.mp fence
      exact stores
  · rcases found with rfl | next
    · contradiction
    · obtain ⟨earlier, here, inPart⟩ := next
      obtain ⟨_, index⟩ := List.getElem?_eq_some_iff.mp here
      rw [List.getElem_range] at index
      exact unstored earlier (by omega) event (inPart.subset underway) stores

end Lines

/-! # Threads that crash -/

/-- The same bytes in the word at the number, of the eight of a line. -/
def SameWord (word : Nat) (left right : Line) : Prop := ∀ lane : Fin 64, lane.val / 8 = word → left lane = right lane

theorem line_of_words {left right : Line} (same : ∀ word < 8, SameWord word left right) : left = right := by
  funext lane
  exact same (lane.val / 8) (by omega) lane rfl

/-- The lines of the fenced turns have the stamp, each word of those of the turn
under way has it or is as it was, and all other lines are as they were. -/
def PersistsInOrder (args : StrideArgs) (stamp : Line) (memory : Memory) (fenced : Nat) (image : Memory) : Prop :=
  ∀ turn < turns args.count 1, ∀ line ∈ args.block turn,
    (∀ word < 8, SameWord word (image.readLine line) stamp ∨ SameWord word (image.readLine line) (memory.readLine line)) ∧
    (turn < fenced → image.readLine line = stamp) ∧ (fenced < turn → image.readLine line = memory.readLine line)

section Threads

variable {ι : Type} {code : ι → Code} {args : ι → StrideArgs} {events : ι → Word → List Event}
variable {registers : ι → Registers} {memory image : Memory} [DecidableEq ι] {schedule : List ι}
variable {now : Pool ι Core Word Byte Event} {thread : ι} {line : Word} {turn : Nat}

/-- A line that no other thread stores to is as it was, until its thread has
stored to it. -/
theorem line_underway (stores : StridedStores code args events)
    (single : ∀ other, other ≠ thread → ∀ byte, (args thread).Covers byte → ¬ (args other).Covers byte)
    (ran : (startThreads registers memory).interleave (threadSteps code) schedule = some now) :
    eventsOf thread now.log <+: strideTrace (events thread) (args thread) ∧
    (∀ line ∈ (args thread).lines, ∀ lane : Fin 64, now.store (line + BitVec.ofNat 64 lane) =
      if StoresAny (eventsOf thread now.log) (line + BitVec.ofNat 64 lane) then
        stamp (registers thread) (args thread) lane
      else memory (line + BitVec.ofNat 64 lane)) ∧
    ∀ byte, (∀ other, ¬ (args other).Covers byte) → now.store byte = memory byte := by
  obtain ⟨finals, alone, left⟩ := stores.alone registers memory
  have covers : ∀ other byte, StoresAny (finals other).data.trace byte ↔ (args other).Covers byte := by
    intro other byte
    rw [(left other).2]
    exact strideTrace_stores (stores.storesLine other)
  have unraced : Unraced finals := by
    intro other third _ byte loaded
    rw [(left other).2] at loaded
    exact absurd loaded (strideTrace_loads (stores.storesLine other))
  have once : StoresOnce (finals thread).data.trace := by
    rw [(left thread).2]
    exact strideTrace_once (stores.storesLine thread) (stores.spaced thread)
  obtain ⟨inFront, stored⟩ := threads_underway alone unraced ran thread
  rw [(left thread).2] at inFront
  refine ⟨inFront, fun line member lane => ?_, fun byte outside => ?_⟩
  · have covered := covers_lane member lane
    have value := stored _ (fun other different found => single other different _ covered ((covers other _).mp found)) once
    rw [value, (left thread).1, writeLines_at _ (lines_apart (stores.spaced thread)) member lane]
  · have value := stored byte (fun other _ found => outside other ((covers other _).mp found)) once
    rw [(left thread).1, writeLines_uncovered _ (outside thread), ite_self] at value
    exact value

omit [DecidableEq ι] in
/-- A line is stored to as a whole. -/
theorem stored_whole (stores : StridedStores code args events) (persists : PersistsLine (events thread))
    {reached : List Event} (inFront : reached <+: strideTrace (events thread) (args thread))
    (member : line ∈ (args thread).lines) {lane : Fin 64} (stored : StoresAny reached (line + BitVec.ofNat 64 lane))
    (other : Fin 64) : StoresAny reached (line + BitVec.ofNat 64 other) := by
  obtain ⟨event, touched, hits⟩ := stored
  rcases mem_strideTrace (inFront.subset touched) with rfl | found
  · exact hits.elim
  · obtain ⟨line', member', access⟩ := found
    have inside := ((stores.storesLine thread).stores line' _).mp ⟨event, access, hits⟩
    have same : line' = line :=
      lines_eq (stores.spaced thread) member' member inside (Memory.lane_mem lane.isLt (by decide))
    cases same
    exact ⟨event, touched, persists.whole line event access _ hits _ (Memory.lane_mem other.isLt (by decide))⟩

/-- A word of a line has the stamp if a store of its thread came before the
moment from which the crash keeps the word, and is as it was if none did. -/
theorem crash_word (stores : StridedStores code args events) (persists : PersistsLine (events thread))
    (aligned : 64 ∣ line.toNat) (member : line ∈ (args thread).lines)
    (single : ∀ other, other ≠ thread → ∀ byte, (args thread).Covers byte → ¬ (args other).Covers byte)
    (ran : (startThreads registers memory).interleave (threadSteps code) schedule = some now)
    (crashed : (startThreads registers memory).Image persistence (threadSteps code) schedule image) (word : Nat) :
    ∃ reached rest, eventsOf thread now.log = reached ++ rest ∧
      ¬ persistence.Settled (8 * lineOf line + word) rest ∧
      ((∃ lane : Fin 64, StoresAny reached (line + BitVec.ofNat 64 lane)) →
        SameWord word (image.readLine line) (stamp (registers thread) (args thread))) ∧
      ((¬ ∃ lane : Fin 64, StoresAny reached (line + BitVec.ofNat 64 lane)) →
        SameWord word (image.readLine line) (memory.readLine line)) := by
  obtain ⟨earlier, middle, ranMiddle, split, same⟩ := crashed.moment ran (8 * lineOf line + word)
  obtain ⟨rest, grown, unsettled⟩ := split thread
  obtain ⟨inFront, stored, _⟩ := line_underway stores single ranMiddle
  have value : ∀ lane : Fin 64, lane.val / 8 = word → image (line + BitVec.ofNat 64 lane) =
      if StoresAny (eventsOf thread middle.log) (line + BitVec.ofNat 64 lane) then
        stamp (registers thread) (args thread) lane
      else memory (line + BitVec.ofNat 64 lane) := by
    intro lane here
    rw [same _ ((wordOf_aligned aligned lane.isLt).trans (by rw [here]))]
    exact stored line member lane
  refine ⟨eventsOf thread middle.log, rest, grown, unsettled, fun found => ?_, fun absent => ?_⟩
  · obtain ⟨lane, found⟩ := found
    intro other here
    exact (value other here).trans (if_pos (stored_whole stores persists inFront member found other))
  · intro lane here
    exact (value lane here).trans (if_neg fun found => absent ⟨lane, found⟩)

theorem crash_lines (stores : StridedStores code args events) (persists : PersistsLine (events thread))
    (aligned : 64 ∣ (args thread).startAddr.toNat) (stride : 64 ∣ (args thread).skip.toNat)
    (single : ∀ other, other ≠ thread → ∀ byte, (args thread).Covers byte → ¬ (args other).Covers byte)
    (ran : (startThreads registers memory).interleave (threadSteps code) schedule = some now)
    (crashed : (startThreads registers memory).Image persistence (threadSteps code) schedule image) :
    PersistsInOrder (args thread) (stamp (registers thread) (args thread)) memory
      (fencedTurns (eventsOf thread now.log)) image := by
  intro turn inTurns line member
  have inLines : line ∈ (args thread).lines := List.mem_flatMap.mpr ⟨turn, List.mem_range.mpr inTurns, member⟩
  have whole : 64 ∣ line.toNat := by
    obtain ⟨i, _, j, _, rfl⟩ := mem_lines.mp inLines
    exact line_aligned aligned stride i j
  obtain ⟨inFront, _, _⟩ := line_underway stores single ran
  refine ⟨fun word inside => ?_, fun fenced => line_of_words fun word inside => ?_,
    fun ahead => line_of_words fun word inside => ?_⟩
  · obtain ⟨reached, _, _, _, complete, untouched⟩ := crash_word stores persists whole inLines single ran crashed word
    by_cases found : ∃ lane : Fin 64, StoresAny reached (line + BitVec.ofNat 64 lane)
    · exact .inl (complete found)
    · exact .inr (untouched found)
  · obtain ⟨reached, rest, grown, unsettled, complete, _⟩ :=
      crash_word stores persists whole inLines single ran crashed word
    obtain ⟨before, flush, between, after, split, flushes, covered⟩ :=
      flush_of_fenced persists inFront inTurns fenced member
    rw [grown] at split
    have here : (8 * lineOf line + word) / 8 = lineOf line := by omega
    obtain ⟨more, early⟩ := Persistence.flushed_before split (flushes _ here) trivial unsettled
    refine complete ⟨0, ?_⟩
    rw [← early, storesAny_append]
    exact .inl (covered _ (Memory.lane_mem (Nat.succ_pos 63) (by decide)))
  · obtain ⟨reached, rest, grown, _, _, untouched⟩ :=
      crash_word stores persists whole inLines single ran crashed word
    apply untouched
    intro found
    obtain ⟨lane, found⟩ := found
    have inLine : line + BitVec.ofNat 64 lane ∈ Range.mk line 64 := Memory.lane_mem lane.isLt (by decide)
    apply unstored_ahead (stores.storesLine thread) persists (stores.spaced thread) inFront inTurns ahead member inLine
    rw [grown, storesAny_append]
    exact .inl found

/-- A crash leaves alone what no thread stores to. -/
theorem crash_untouched (stores : StridedStores code args events) (thread : ι)
    (single : ∀ other, other ≠ thread → ∀ byte, (args thread).Covers byte → ¬ (args other).Covers byte)
    (ran : (startThreads registers memory).interleave (threadSteps code) schedule = some now)
    (crashed : (startThreads registers memory).Image persistence (threadSteps code) schedule image) {byte : Word}
    (outside : ∀ other, ¬ (args other).Covers byte) : image byte = memory byte := by
  obtain ⟨earlier, middle, ranMiddle, _, same⟩ := crashed.moment ran (wordOf byte)
  rw [same byte rfl]
  exact (line_underway stores single ranMiddle).2.2 byte outside

/-- Threads that have all ended, on lines of their own, have left nothing to lose. -/
theorem crash_complete [Inhabited ι] {done : Pool ι Core Word Byte Event} (stores : StridedStores code args events)
    (persists : ∀ thread, PersistsLine (events thread)) (aligned : ∀ thread, 64 ∣ (args thread).startAddr.toNat)
    (stride : ∀ thread, 64 ∣ (args thread).skip.toNat)
    (apart : ∀ thread other, other ≠ thread → ∀ byte, (args thread).Covers byte → ¬ (args other).Covers byte)
    (complete : (startThreads registers memory).Complete (threadSteps code) schedule done)
    (crashed : (startThreads registers memory).Image persistence (threadSteps code) schedule image) :
    image = done.store := by
  have stamped := stores.stamped complete
  funext byte
  by_cases covered : ∃ thread, (args thread).Covers byte
  · obtain ⟨thread, line, inLines, inside⟩ := covered
    obtain ⟨turn, inRange, member⟩ := List.mem_flatMap.mp inLines
    have inTurns := List.mem_range.mp inRange
    have fenced : turn < fencedTurns (eventsOf thread done.log) := by
      rw [stamped.traces, fencedTurns_whole _ (persists thread)]
      exact inTurns
    have inOrder := crash_lines stores (persists thread) (aligned thread) (stride thread) (apart thread) complete.ran crashed
    have value := (inOrder turn inTurns line member).2.1 fenced
    let lane : Fin 64 := ⟨(byte - line).toNat, inside⟩
    have back : line + BitVec.ofNat 64 lane = byte := by
      rw [BitVec.ofNat_toNat, BitVec.setWidth_eq, BitVec.add_comm, BitVec.sub_add_cancel]
    have here := congrFun value lane
    rw [Memory.readLine, back] at here
    have single := stamped.single thread byte fun other different found =>
      apart thread other different byte ⟨line, inLines, inside⟩ found
    have stored : memory.writeLines (stamp (registers thread) (args thread)) (args thread).lines
        (line + BitVec.ofNat 64 lane) = stamp (registers thread) (args thread) lane :=
      writeLines_at _ (lines_apart (stores.spaced thread)) inLines lane
    rw [back] at stored
    rw [here, single, stored]
  · have outside : ∀ thread, ¬ (args thread).Covers byte := fun thread found => covered ⟨thread, found⟩
    rw [crash_untouched stores default (apart default) complete.ran crashed outside,
      stamped.single default byte fun other _ => outside other, writeLines_uncovered _ (outside default)]

end Threads

/-! # The kernels of memaccess.c -/

inductive PersistentKernel where
  | strideNt
  | strideStoreclwb
  | clwbNtMixed
deriving DecidableEq, Repr

def PersistentKernel.code : PersistentKernel → StrideArgs → Code
  | .strideNt => MemAccess.strideNt
  | .strideStoreclwb => MemAccess.strideStoreclwb
  | .clwbNtMixed => MemAccess.clwbNtMixed

def PersistentKernel.events : PersistentKernel → Word → List Event
  | .strideNt, line => [.ntStore line]
  | .strideStoreclwb, line => [.store line 64, .clwb line]
  | .clwbNtMixed, line => [.store line 64, .clwb line]

theorem PersistentKernel.persists (kernel : PersistentKernel) : PersistsLine kernel.events := by
  cases kernel with
  | strideNt => exact persistsLine_nt
  | strideStoreclwb => exact persistsLine_storeclwb
  | clwbNtMixed => exact persistsLine_storeclwb

theorem PersistentKernel.storesLine (kernel : PersistentKernel) : StoresLine kernel.events := by
  cases kernel with
  | strideNt => exact storesLine_nt
  | strideStoreclwb => exact storesLine_storeclwb
  | clwbNtMixed => exact storesLine_storeclwb

theorem PersistentKernel.kernel (kernel : PersistentKernel) (args : StrideArgs) :
    ∃ access, Advances access (stored kernel.events) ∧ kernel.code args = strided access .mfence args := by
  cases kernel with
  | strideNt => exact ⟨_, advances_nt, rfl⟩
  | strideStoreclwb => exact ⟨_, advances_storeclwb, rfl⟩
  | clwbNtMixed => exact ⟨_, advances_storeclwb, rfl⟩

section Kernels

variable {args : StrideArgs} {registers : Registers} {memory image : Memory} {schedule : List Unit}
variable {now : Pool Unit Core Word Byte Event}

theorem no_other {thread : Unit} : ∀ other, other ≠ thread → ∀ byte, args.Covers byte → ¬ args.Covers byte :=
  fun _ different => absurd rfl different

/-- One thread that runs a persistent kernel: after a crash at any moment its
lines are persistent in the order of its turns. -/
theorem stride_crash (kernel : PersistentKernel) (spaced : args.Spaced) (aligned : 64 ∣ args.startAddr.toNat)
    (stride : 64 ∣ args.skip.toNat) (registers : Registers) (memory : Memory) :
    let start := startThreads (fun _ : Unit => registers) memory
    let steps := threadSteps fun _ : Unit => kernel.code args
    start.EveryOrderEnds steps ∧
    ∀ schedule now image, start.interleave steps schedule = some now → start.Image persistence steps schedule image →
      PersistsInOrder args (stamp registers args) memory (fencedTurns (eventsOf () now.log)) image ∧
      (∀ byte, ¬ args.Covers byte → image byte = memory byte) ∧
      (now.Ended steps () → image = now.store) := by
  intro start steps
  have stores : StridedStores (fun _ : Unit => kernel.code args) (fun _ => args) fun _ => kernel.events :=
    ⟨fun _ => kernel.kernel args, fun _ => kernel.storesLine, fun _ => spaced⟩
  refine ⟨stores.everyOrderEnds _ memory, fun schedule now image ran crashed => ⟨?_, ?_, ?_⟩⟩
  · exact crash_lines stores kernel.persists aligned stride no_other ran crashed
  · intro byte outside
    exact crash_untouched stores () no_other ran crashed fun _ => outside
  · intro ended
    exact crash_complete stores (fun _ => kernel.persists) (fun _ => aligned) (fun _ => stride)
      (fun _ => no_other) ⟨ran, fun _ => ended⟩ crashed

/-- Two lines in each of three strides. -/
def crashedStrides : StrideArgs := ⟨0x1000, 100, 256, 5, 3⟩

theorem crashedStrides_spaced : crashedStrides.Spaced := ⟨by decide, by decide, by decide, by decide⟩

theorem stride_crash_three :
    let registers : Registers := ⟨fun _ => 0, fun _ _ => 0⟩
    let start := startThreads (fun _ : Unit => registers) fun _ => 7
    let steps := threadSteps fun _ : Unit => PersistentKernel.clwbNtMixed.code crashedStrides
    start.EveryOrderEnds steps ∧
    ∀ schedule now image, start.interleave steps schedule = some now → start.Image persistence steps schedule image →
      PersistsInOrder crashedStrides (stamp registers crashedStrides) (fun _ => 7) (fencedTurns (eventsOf () now.log)) image ∧
      (∀ byte, ¬ crashedStrides.Covers byte → image byte = 7) ∧ (now.Ended steps () → image = now.store) :=
  stride_crash .clwbNtMixed crashedStrides_spaced (by decide) (by decide) ⟨fun _ => 0, fun _ _ => 0⟩ fun _ => 7

/-- `stride_store` writes no line back: at every moment, its end included, a
crash may leave all as it was. -/
theorem stride_store_crash (room : args.size.toInt + 64 ≤ 2 ^ 63) (registers : Registers) (memory : Memory) :
    let start := startThreads (fun _ : Unit => registers) memory
    let steps := threadSteps fun _ : Unit => strideStore args
    start.EveryOrderEnds steps ∧
    ∀ schedule now, start.interleave steps schedule = some now →
      start.Image persistence steps schedule memory ∧ start.Image persistence steps schedule now.store := by
  intro start steps
  obtain ⟨final, ranAlone, _, traced⟩ := strided_alone registers memory advances_store room
  have alone : EndsAlone (fun _ : Unit => strideStore args) (fun _ => registers) memory fun _ => final :=
    fun _ => ranAlone
  have unraced : Unraced fun _ : Unit => final := fun _ _ different => absurd rfl different
  obtain ⟨lengths, _, ends⟩ := threads_end alone
  refine ⟨ends.everyOrderEnds (threads_independent alone unraced), fun schedule now ran =>
    ⟨?_, Pool.image_now persistence ran⟩⟩
  apply Pool.image_start ran rfl
  intro thread place settled
  obtain ⟨inFront, _⟩ := threads_underway alone unraced ran thread
  rw [traced] at inFront
  obtain ⟨before, flush, middle, fence, after, split, flushes, _⟩ := settled
  have member : flush ∈ strideTrace (fun line => [.store line 64]) args := by
    apply inFront.subset
    rw [split]
    simp
  rcases mem_strideTrace member with rfl | found
  · exact flushes
  · obtain ⟨line, _, access⟩ := found
    cases List.mem_singleton.mp access
    exact flushes

theorem stride_store_crash_three :
    let start := startThreads (fun _ : Unit => (⟨fun _ => 0, fun _ _ => 0⟩ : Registers)) fun _ => 7
    let steps := threadSteps fun _ : Unit => strideStore crashedStrides
    start.EveryOrderEnds steps ∧
    ∀ schedule now, start.interleave steps schedule = some now →
      start.Image persistence steps schedule (fun _ => 7) ∧ start.Image persistence steps schedule now.store :=
  stride_store_crash crashedStrides_spaced.room ⟨fun _ => 0, fun _ _ => 0⟩ fun _ => 7

end Kernels

end RwSep.MemAccess
