import RwSep.Latency.Buffer

namespace RwSep.Latency

open RwSep.Data RwSep.Execution
open RwSep.X86 (Reg Memory lineOf)
open RwSep.Benchmark (LATENCY_OPS_COUNT)

/-! What the latency functions find in a cache that evicts nothing on its own. -/

/-- The lines that are cached. -/
abbrev Cache := Nat → Bool

/-- A non-temporal load is of memory that is written back: it caches its line. -/
def Access.cached (cache : Cache) (line : Nat) : Access → Cache
  | .vmovdqa => Function.update cache line true
  | .vmovntpd => Function.update cache line false
  | .movq => Function.update cache line true
  | .vmovdqaLoad _ => Function.update cache line true
  | .vmovntdqaLoad _ => Function.update cache line true
  | .movqLoad => Function.update cache line true
  | .clflush => Function.update cache line false
  | .clflushopt => Function.update cache line false
  | .clwb => cache

def Event.cached (cache : Cache) : Event → Cache
  | .load address _ => Function.update cache (lineOf address) true
  | .ntLoad address => Function.update cache (lineOf address) true
  | .store address _ => Function.update cache (lineOf address) true
  | .ntStore address => Function.update cache (lineOf address) false
  | .clflush address => Function.update cache (lineOf address) false
  | .clflushopt address => Function.update cache (lineOf address) false
  | .clwb _ => cache
  | .mfence => cache
  | .rdtscp _ => cache

/-- Loads and stores that go through the cache have to fetch a line that is not cached. -/
def Access.misses (cache : Cache) (line : Nat) : Access → Bool
  | .vmovdqa => !cache line
  | .movq => !cache line
  | .vmovdqaLoad _ => !cache line
  | .vmovntdqaLoad _ => !cache line
  | .movqLoad => !cache line
  | _ => false

def Event.misses (cache : Cache) : Event → Bool
  | .load address _ => !cache (lineOf address)
  | .ntLoad address => !cache (lineOf address)
  | .store address _ => !cache (lineOf address)
  | _ => false

def cacheAfter (cache : Cache) (events : List Event) : Cache := events.foldl (fun cache event => event.cached cache) cache

def missCount (cache : Cache) : List Event → Nat
  | [] => 0
  | event :: rest => (event.misses cache).toNat + missCount (event.cached cache) rest

/-! # Within a block -/

/-- The cache as it concerns the lines of a block, by their number in the block. -/
def blockAfter (cache : Cache) (accesses : List (Access × Nat)) : Cache :=
  accesses.foldl (fun cache entry => entry.1.cached cache (entry.2 / 64)) cache

def blockMisses (cache : Cache) : List (Access × Nat) → Nat
  | [] => 0
  | entry :: rest => (entry.1.misses cache (entry.2 / 64)).toNat + blockMisses (entry.1.cached cache (entry.2 / 64)) rest

def lineAt (addr : Word) (line : Nat) : Nat := lineOf (addr + BitVec.ofNat 64 (64 * line))

/-- The lines of a block of 256 bytes are cached as in the block's own cache. -/
def Mirrors (addr : Word) (cache block : Cache) : Prop := ∀ line < 4, cache (lineAt addr line) = block line

def Family.Loads : Family → Bool
  | .load => true
  | .ntLoad => true
  | .loadMovq => true
  | _ => false

section Block

variable {addr : Word} {cache block : Cache} {line other disp lines : Nat} {kind : Access} {value : Bool}
variable {accesses : List (Access × Nat)} {family : Family}

theorem lineOf_disp (aligned : 64 ∣ addr.toNat) (within : disp < 256) :
    lineOf (addr + BitVec.ofNat 64 disp) = lineAt addr (disp / 64) := by
  unfold lineAt lineOf
  bv_omega

theorem lineAt_injective (aligned : 64 ∣ addr.toNat) (bound : line < 4) (bound' : other < 4)
    (same : lineAt addr line = lineAt addr other) : line = other := by
  unfold lineAt lineOf at same
  bv_omega

theorem Mirrors.update (mirrors : Mirrors addr cache block) (aligned : 64 ∣ addr.toNat) (bound : line < 4) :
    Mirrors addr (Function.update cache (lineAt addr line) value) (Function.update block line value) := by
  intro other bound'
  by_cases same : other = line
  · rw [same, Function.update_self, Function.update_self]
  · have different : lineAt addr other ≠ lineAt addr line := fun equal => same (lineAt_injective aligned bound' bound equal)
    rw [Function.update_of_ne different, Function.update_of_ne same]
    exact mirrors other bound'

theorem Mirrors.access (mirrors : Mirrors addr cache block) (aligned : 64 ∣ addr.toNat) (within : disp < 256) (kind : Access) :
    (kind.event (addr + BitVec.ofNat 64 disp)).misses cache = kind.misses block (disp / 64) ∧
      Mirrors addr ((kind.event (addr + BitVec.ofNat 64 disp)).cached cache) (kind.cached block (disp / 64)) := by
  have located := lineOf_disp aligned within
  have bound : disp / 64 < 4 := by omega
  have here := mirrors _ bound
  have after (value : Bool) : Mirrors addr (Function.update cache (lineOf (addr + BitVec.ofNat 64 disp)) value)
      (Function.update block (disp / 64) value) := located ▸ mirrors.update aligned bound
  have missing : (!cache (lineOf (addr + BitVec.ofNat 64 disp))) = !block (disp / 64) := by rw [located, here]
  cases kind with
  | vmovdqa => exact ⟨missing, after true⟩
  | vmovntpd => exact ⟨rfl, after false⟩
  | movq => exact ⟨missing, after true⟩
  | vmovdqaLoad dst => exact ⟨missing, after true⟩
  | vmovntdqaLoad dst => exact ⟨missing, after true⟩
  | movqLoad => exact ⟨missing, after true⟩
  | clflush => exact ⟨rfl, after false⟩
  | clflushopt => exact ⟨rfl, after false⟩
  | clwb => exact ⟨rfl, mirrors⟩

theorem Mirrors.all (mirrors : Mirrors addr cache block) (aligned : 64 ∣ addr.toNat)
    (within : ∀ entry ∈ accesses, entry.2 < 256) :
    missCount cache (accessEvents addr accesses) = blockMisses block accesses ∧
      Mirrors addr (cacheAfter cache (accessEvents addr accesses)) (blockAfter block accesses) := by
  induction accesses generalizing cache block with
  | nil => exact ⟨rfl, mirrors⟩
  | cons entry rest ih =>
      obtain ⟨missing, after⟩ := mirrors.access aligned (within entry List.mem_cons_self) entry.1
      obtain ⟨later, final⟩ := ih after fun other member => within other (List.mem_cons_of_mem _ member)
      refine ⟨?_, final⟩
      change (Event.misses cache _).toNat + missCount _ (accessEvents addr rest) = _
      rw [missing, later]
      rfl

/-- Accesses that all cache, or all evict, leave their lines so. -/
theorem blockAfter_all (each : ∀ entry ∈ accesses, ∀ block, entry.1.cached block (entry.2 / 64) =
      Function.update block (entry.2 / 64) value) (block : Cache)
    (reached : block line = value ∨ ∃ entry ∈ accesses, entry.2 / 64 = line) : blockAfter block accesses line = value := by
  induction accesses generalizing block with
  | nil =>
      rcases reached with already | ⟨_, member, _⟩
      · exact already
      · exact absurd member List.not_mem_nil
  | cons entry rest ih =>
      apply ih (fun other member => each other (List.mem_cons_of_mem _ member))
      simp only [each entry List.mem_cons_self]
      by_cases here : line = entry.2 / 64
      · rw [here, Function.update_self]
        exact .inl rfl
      · rw [Function.update_of_ne here]
        rcases reached with already | ⟨other, member, same⟩
        · exact .inl already
        · rcases List.mem_cons.mp member with rfl | later
          · exact absurd same.symm here
          · exact .inr ⟨other, later, same⟩

/-- What a function does before it measures decides what is cached, whatever has been. -/
theorem fetched_block (family : Family) (block : Cache) (bound : line < 4) :
    blockAfter block family.fetched line = !family.cold := by
  rw [Family.fetched]
  cases family.cold with
  | true =>
      apply blockAfter_all
      · intro entry member block
        obtain ⟨_, _, rfl⟩ := List.mem_map.mp member
        rfl
      · exact .inr ⟨(.clflush, 64 * line), List.mem_map_of_mem (List.mem_range.mpr bound), Nat.mul_div_cancel_left line (by decide)⟩
  | false =>
      apply blockAfter_all
      · intro entry member block
        obtain ⟨_, _, rfl⟩ := List.mem_map.mp member
        rfl
      · refine .inr ⟨(.movqLoad, 8 * (8 * line)), List.mem_map_of_mem (List.mem_range.mpr (by omega)), ?_⟩
        simp only
        omega

theorem measured_misses (few : 1 ≤ lines ∧ lines ≤ 4) :
    blockMisses (fun _ => !family.cold) (family.accesses lines) = if family.Loads then lines else 0 := by
  have each : ∀ lines ∈ [1, 2, 3, 4], blockMisses (fun _ => !family.cold) (family.accesses lines) =
      if family.Loads then lines else 0 := by
    cases family <;> decide
  apply each
  simp only [List.mem_cons, List.not_mem_nil, or_false]
  omega

theorem fitting_displacement {entry : Access × Nat} (fitting : Fitting entry) : entry.2 < 256 := by
  have room := fitting.room
  obtain ⟨kind, disp⟩ := entry
  cases kind <;> simp only [Access.size] at room ⊢ <;> omega

theorem cacheAfter_append (cache : Cache) (events more : List Event) :
    cacheAfter cache (events ++ more) = cacheAfter (cacheAfter cache events) more := List.foldl_append

/-- What is in the cache when a call starts to measure. -/
theorem opened_block (family : Family) (aligned : 64 ∣ addr.toNat) (cache : Cache) :
    Mirrors addr (cacheAfter cache (family.openingEvents addr)) fun _ => !family.cold := by
  have start : Mirrors addr cache fun line => cache (lineAt addr line) := fun _ _ => rfl
  have within : ∀ entry ∈ family.fetched, entry.2 < 256 := by
    intro entry member
    exact fitting_displacement (fetched_fitting family entry member)
  obtain ⟨_, after⟩ := start.all aligned within
  intro line bound
  have opened := after line bound
  rw [fetched_block family _ bound] at opened
  rw [Family.openingEvents, ← List.singleton_append, cacheAfter_append, cacheAfter_append]
  exact opened

theorem call_misses (few : 1 ≤ lines ∧ lines ≤ 4) (aligned : 64 ∣ addr.toNat) (cache : Cache) {stamp : Word} :
    missCount (cacheAfter cache (family.openingEvents addr ++ [.rdtscp stamp])) (accessEvents addr (family.accesses lines)) =
      if family.Loads then lines else 0 := by
  have within : ∀ entry ∈ family.accesses lines, entry.2 < 256 := by
    intro entry member
    exact fitting_displacement (accesses_fitting family few.2 entry member)
  rw [cacheAfter_append, ← measured_misses few]
  exact ((opened_block family aligned cache).all aligned within).1

end Block

section Job

variable {counter : Counter} {count lines op : Nat} {m : Word} {core : Core} {memory : Memory} {all : List Task}
variable {family : Family}

/-- Each measured call of a load function finds none of its lines in the cache and fetches each once, each of a store
function finds all, whatever the calls before it and the cache before the job. -/
theorem latencyMeasurements_misses (aepSupported : Bool) (aligned : 64 ∣ m.toNat)
    (measured : some (family, lines) ∈ measuredTasks aepSupported) (bound : op < LATENCY_OPS_COUNT) (counter : Counter)
    (core : Core) (memory : Memory) (cache : Cache) :
    ∃ before start stop after, (latencyMeasurements counter aepSupported m core memory).2.events =
        before ++ .rdtscp start :: (accessEvents (blockAt m (64 * lines) op) (family.accesses lines) ++
          .mfence :: .rdtscp stop :: after) ∧
      missCount (cacheAfter cache (before ++ [.rdtscp start])) (accessEvents (blockAt m (64 * lines) op) (family.accesses lines)) =
        if family.Loads then lines else 0 := by
  have short := measuredTasks_short aepSupported
  obtain ⟨before, start, stop, after, events⟩ := @runTasks_call counter LATENCY_OPS_COUNT lines op m core memory
    (measuredTasks aepSupported) family short measured bound
  have block : 64 ∣ (blockAt m (64 * lines) op).toNat := by
    rw [blockAt, BitVec.toNat_add, BitVec.toNat_ofNat, Nat.mul_assoc]
    omega
  refine ⟨before ++ family.openingEvents (blockAt m (64 * lines) op), start, stop, after, ?_, ?_⟩
  · rw [latencyMeasurements_runTasks, events]
    simp [Family.events]
  · rw [List.append_assoc, cacheAfter_append]
    exact call_misses (short _ measured) block (cacheAfter cache before)

/-- The eighth call of `load_256byte_fence`, in a cache that holds all lines. -/
theorem latencyMeasurements_misses_page : ∃ before start stop after,
    (latencyMeasurements stoppingCounter true 0x1000 ⟨fun _ => 0, fun _ _ => 0, 3, 0, 0⟩ fun _ => 7).2.events =
        before ++ .rdtscp start :: (accessEvents (blockAt 0x1000 256 7) (Family.load.accesses 4) ++
          .mfence :: .rdtscp stop :: after) ∧
      missCount (cacheAfter (fun _ => true) (before ++ [.rdtscp start]))
        (accessEvents (blockAt 0x1000 256 7) (Family.load.accesses 4)) = 4 :=
  @latencyMeasurements_misses 4 7 0x1000 .load true (by decide) (by decide) (by decide) stoppingCounter
    ⟨fun _ => 0, fun _ _ => 0, 3, 0, 0⟩ (fun _ => 7) fun _ => true

end Job

end RwSep.Latency
