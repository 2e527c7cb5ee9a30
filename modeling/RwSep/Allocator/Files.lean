import RwSep.Allocator.Persistence

namespace RwSep.Allocator

open RwSep.Data RwSep.Execution RwSep.Packing

/-! The files OptaneStudy's allocators map, and their channels. -/

namespace OptaneStudy

def regionPath (channel : Int) (thread : String) (number : Nat) : String :=
  "/mnt/aep" ++ toString channel ++ "/test" ++ thread ++ toString number

def directory (channel : Int) : String := "/mnt/aep" ++ toString channel ++ "/"

variable {left right channel : Int} {thread : String} {m n : Nat} {t u : BitVec 32}

theorem regionPath_eq : regionPath channel thread n =
    "/mnt/aep" ++ toString channel ++ "/" ++ ("test" ++ (thread ++ n.repr)) := by
  apply String.toList_inj.mp
  simp [regionPath]

theorem regionPath_directory_iff : StartsWith (regionPath right thread n) (directory left) ↔ left = right := by
  rw [regionPath_eq]
  exact startsWith_directory_iff ..

theorem regionPath_inj {first second : String} (same : regionPath left first m = regionPath right second n) :
    left = right ∧ first ++ m.repr = second ++ n.repr := by
  rw [regionPath_eq, regionPath_eq] at same
  obtain ⟨channels, names⟩ := directory_inj same
  exact ⟨channels, String.append_right_inj _ |>.mp names⟩

theorem grown_eq_grown_iff : regionPath left "" m = regionPath right "" n ↔ left = right ∧ m = n := by
  apply Iff.intro
  · intro same
    obtain ⟨channels, names⟩ := regionPath_inj same
    simpa only [String.empty_append, repr_inj] using And.intro channels names
  · intro found
    obtain ⟨rfl, rfl⟩ := found
    rfl

/-- The thread id and the region number run together without a separator. -/
theorem threaded_eq_grown_iff : regionPath left (toString t.toNat) 0 = regionPath right "" n ↔
    left = right ∧ t ≠ 0 ∧ n = 10 * t.toNat := by
  have digits : t.toNat.repr ++ Nat.repr 0 = n.repr ↔ t ≠ 0 ∧ n = 10 * t.toNat := by
    rw [repr_append_zero_eq_repr_iff]
    simp [← BitVec.toNat_inj]
  apply Iff.intro
  · intro same
    obtain ⟨channels, names⟩ := regionPath_inj same
    exact ⟨channels, digits.mp (by simpa using names)⟩
  · intro found
    obtain ⟨rfl, number⟩ := found
    have names := digits.mpr number
    rw [regionPath_eq, regionPath_eq, Nat.toString_eq_repr, names, String.empty_append]

theorem threaded_eq_threaded_iff :
    regionPath left (toString t.toNat) 0 = regionPath right (toString u.toNat) 0 ↔ left = right ∧ t = u := by
  apply Iff.intro
  · intro same
    obtain ⟨channels, names⟩ := regionPath_inj same
    exact ⟨channels, BitVec.eq_of_toNat_eq (repr_inj.mp (String.append_left_inj _ |>.mp names))⟩
  · intro found
    obtain ⟨rfl, rfl⟩ := found
    rfl

end OptaneStudy

/-! # Paths opened -/

def Acquire.path? : Acquire → Option String
  | .newChar _ => none
  | .mapFile path _ => some path

namespace Os

variable (os : Os)

theorem obtain_paths (acquire : Acquire) :
    paths (os.obtain acquire).2.log = paths os.log ++ acquire.path?.toList := by
  cases acquire <;> simp [obtain, respond, paths, Event.path?, Acquire.path?]

theorem obtainAll_paths (acquires : List Acquire) :
    paths (os.obtainAll acquires).log = paths os.log ++ acquires.filterMap Acquire.path? := by
  induction acquires generalizing os with
  | nil => simp [obtainAll]
  | cons acquire rest ih =>
      rw [obtainAll, ih, obtain_paths]
      cases acquire <;> simp [Acquire.path?, List.filterMap_cons]

theorem mappedFill_paths (path : String) (length : Word) :
    paths (os.fill (mappedFill true path length)).2.log = paths os.log ++ [path] := by
  simp [fill, mappedFill, obtain_paths, obtainAll_paths, Acquire.path?]

end Os

section Call

variable {a b after : Fastalloc} {os os' : Os} {first size pointer : Word} {onNvm : Bool}
variable {requests : List Request} {pointers : List Word}

theorem Served.paths (outcome : Served (OptaneStudy.growth true) a os size onNvm pointer after os') :
    ((after.pool true).cnt = (a.pool true).cnt ∧ Allocator.paths os'.log = Allocator.paths os.log) ∨
    ((after.pool true).cnt.toNat = (a.pool true).cnt.toNat + 1 ∧
      Allocator.paths os'.log =
        Allocator.paths os.log ++ [OptaneStudy.regionPath a.channel "" (a.pool true).cnt.toNat]) := by
  cases outcome with
  | fit room served other channel =>
      refine .inl ⟨?_, rfl⟩
      cases onNvm with
      | true => rw [served, Pool.take_cnt]
      | false => exact congrArg Pool.cnt other
  | grow full bound served other channel =>
      cases onNvm with
      | true => exact .inr ⟨by rw [served, Pool.take_cnt, Pool.opened_cnt], Os.mappedFill_paths ..⟩
      | false =>
          exact .inl ⟨congrArg Pool.cnt other, by simp [Fastalloc.fill, Os.fill, Os.obtainAll,
            Os.obtain_paths, Acquire.path?]⟩

/-- The files opened since `before`, by an object that had `used` regions then. -/
theorem run_paths (ran : run (step (OptaneStudy.growth true)) (a, os) requests = .ok (pointers, (b, os'))) :
    Allocator.paths os'.log = Allocator.paths os.log ++
      (List.range' (a.pool true).cnt.toNat ((b.pool true).cnt.toNat - (a.pool true).cnt.toNat)).map
        (OptaneStudy.regionPath a.channel "") := by
  refine (run_preserves (fun state => state.1.channel = a.channel ∧
    (a.pool true).cnt.toNat ≤ (state.1.pool true).cnt.toNat ∧
    Allocator.paths state.2.log = Allocator.paths os.log ++
      (List.range' (a.pool true).cnt.toNat ((state.1.pool true).cnt.toNat - (a.pool true).cnt.toNat)).map
        (OptaneStudy.regionPath a.channel "")) ?_ ⟨rfl, Nat.le_refl _, by simp⟩ ran).2.2
  intro found request pointer given pair called
  obtain ⟨before, osBefore⟩ := found
  obtain ⟨after, osAfter⟩ := given
  obtain ⟨channel, more, opened⟩ := pair
  simp only at channel more opened ⊢
  have outcome : Served (OptaneStudy.growth true) before osBefore _ _ pointer after osAfter :=
    Fastalloc.allocWith_served called
  refine ⟨outcome.channel_eq.trans channel, ?_⟩
  rcases outcome.paths with ⟨same, paths⟩ | ⟨grown, paths⟩
  · rw [same, paths]
    exact ⟨more, opened⟩
  · refine ⟨by omega, ?_⟩
    rw [paths, opened, grown, Nat.succ_sub more, List.range'_concat, channel]
    have last : (a.pool true).cnt.toNat +
        1 * ((before.pool true).cnt.toNat - (a.pool true).cnt.toNat) = (before.pool true).cnt.toNat := by
      omega
    rw [List.map_append, last, List.append_assoc]
    rfl

end Call

/-! # The channel of a session -/

namespace Setup

variable {setup : Setup} {dram nvm : Table} {channel : Int} {os os₁ : Os} {a : Fastalloc}

theorem firstPath_directory (copy : setup.copy = .optaneStudy) (nvmCnt : Word) :
    StartsWith (setup.firstPath nvmCnt) (OptaneStudy.directory setup.channel) := by
  unfold firstPath
  rw [copy]
  cases setup.kind with
  | plain => exact OptaneStudy.regionPath_directory_iff.mpr rfl
  | concurrency => exact OptaneStudy.regionPath_directory_iff.mpr rfl

theorem growth_optaneStudy (copy : setup.copy = .optaneStudy) (linux : setup.linux = true) :
    setup.growth = OptaneStudy.growth true := by
  unfold growth
  rw [copy, linux]

theorem Started.paths (started : setup.Started dram nvm channel os a os₁) (linux : setup.linux = true) :
    Allocator.paths os₁.log = Allocator.paths os.log ++ [setup.firstPath 0] := by
  rw [started.system, firstFill, linux, Os.mappedFill_paths, afterDram, Os.obtain_paths]
  simp [Acquire.path?]

theorem Started.channel_eq (started : setup.Started dram nvm channel os a os₁)
    (copy : setup.copy = .optaneStudy) :
    a.channel = setup.channel ↔ setup.kind = .plain ∨ channel = setup.channel := by
  rw [started.channel]
  by_cases plain : setup.kind = .plain
  · simp [setsChannel, copy, plain]
  · simp [setsChannel, plain]

end Setup

section Session

variable {setup : Setup} {dram nvm : Table} {channel : Int} {os os₁ os₂ : Os} {a b : Fastalloc}
variable {requests : List Request} {pointers : List Word}
variable (opened : setup.Started dram nvm channel os a os₁) (copy : setup.copy = .optaneStudy)
variable (linux : setup.linux = true)
variable (ran : run (step (OptaneStudy.growth true)) (a, os₁) requests = .ok (pointers, (b, os₂)))

include opened copy linux ran

theorem session_paths_iff :
    (∀ path ∈ (paths os₂.log).drop (paths os.log).length,
      StartsWith path (OptaneStudy.directory setup.channel)) ↔
      a.channel = setup.channel ∨ (b.pool true).cnt.toNat = 1 := by
  have more := run_cnt_le ran true
  rw [opened.cnt] at more
  rw [run_paths ran, opened.paths linux, opened.cnt, List.append_assoc, List.drop_left]
  apply Iff.intro
  · intro placed
    by_contra neither
    rw [not_or] at neither
    have second := placed (OptaneStudy.regionPath a.channel "" 1) <| by
      refine List.mem_append_right _ (List.mem_map.mpr ⟨1, ?_, rfl⟩)
      rw [List.mem_range'_1]
      omega
    exact neither.1 (OptaneStudy.regionPath_directory_iff.mp second).symm
  · intro condition path member
    rcases List.mem_append.mp member with first | grown
    · rw [List.mem_singleton.mp first]
      exact setup.firstPath_directory copy 0
    · rcases condition with set | single
      · obtain ⟨number, _, rfl⟩ := List.mem_map.mp grown
        exact OptaneStudy.regionPath_directory_iff.mpr set.symm
      · simp [single] at grown

theorem session_blocksUnder (placed : a.channel = setup.channel ∨ (b.pool true).cnt.toNat = 1)
    (short : ∀ request ∈ requests, request.size ≤ ALLOC_SIZE) (granted : Granted os₂.log) :
    BlocksUnder (OptaneStudy.directory setup.channel) os₂.log (blocks requests pointers) := by
  have lengths := setup.growth_length
  rw [Setup.growth_optaneStudy copy linux] at lengths
  have first : setup.firstFill.kept.backing.Under (OptaneStudy.directory setup.channel) := by
    rw [Setup.firstFill, mappedFill, if_pos linux]
    exact setup.firstPath_directory copy 0
  have used : 0 < (a.pool true).cnt.toNat := by
    rw [opened.cnt]
    decide
  obtain ⟨events, logged⟩ := run_log ran
  have grantedFirst : Granted os₁.log := Granted.of_append (logged ▸ granted)
  obtain ⟨slots, _⟩ := run_placed opened.represents
    (fun request member => Request.small_of_le (short request member)) ran
  suffices EntriesUnder (OptaneStudy.directory setup.channel) setup.firstLength b os₂.log from
    this.blocks slots setup.firstLength_le
  rcases placed with set | single
  · refine (opened.traced_granted grantedFirst first).run lengths used set ?_ ran granted
    intro a set _
    exact OptaneStudy.regionPath_directory_iff.mpr set.symm
  · refine Traced.entries_of_single (fun index backing =>
      index = 0 → backing.Under (OptaneStudy.directory setup.channel)) ?_ (fun _ kind => kind rfl) single
    exact (opened.traced_granted grantedFirst fun _ => first).run lengths used rfl
      (fun a _ used zero => absurd zero (Nat.ne_of_gt used)) ran granted

end Session

/-- An OptaneStudy object maps files of its channel only, exactly when `init`
has set the member `channel`, or the member happened to hold the channel, or
no NVM region is opened after `init`. Then its NVM blocks are on the channel too. -/
theorem channel_placement_iff (setup : Setup) (copy : setup.copy = .optaneStudy) (linux : setup.linux = true)
    {dram nvm : Table} {channel : Int} {os os₁ os₂ : Os} {a b : Fastalloc} {requests : List Request}
    {pointers : List Word} (started : setup.init (.new dram nvm channel) os = .ok (a, os₁))
    (ran : run setup.step (a, os₁) requests = .ok (pointers, (b, os₂))) :
    ((∀ path ∈ (paths os₂.log).drop (paths os.log).length,
        StartsWith path (OptaneStudy.directory setup.channel)) ↔
      setup.kind = .plain ∨ channel = setup.channel ∨ Guarded setup.step FitsNvm (a, os₁) requests) ∧
    (setup.kind = .plain ∨ channel = setup.channel ∨ Guarded setup.step FitsNvm (a, os₁) requests →
      (∀ request ∈ requests, request.size ≤ ALLOC_SIZE) → Granted os₂.log →
      BlocksUnder (OptaneStudy.directory setup.channel) os₂.log (blocks requests pointers)) := by
  have opened := setup.init_started started
  rw [setup.step_eq, Setup.growth_optaneStudy copy linux] at ran ⊢
  rw [← nvm_unopened_iff ran, ← or_assoc, ← opened.channel_eq copy, ← BitVec.toNat_inj, opened.cnt]
  exact ⟨session_paths_iff opened copy linux ran, session_blocksUnder opened copy linux ran⟩

theorem channel_placement_iff_lucky : ∃ a os₁ b os₂ pointers,
    Setup.init ⟨.optaneStudy, .concurrency, true, 1, 7⟩
      (.new (Vector.replicate 100 0) (Vector.replicate 100 0) 1) spacedOs = .ok (a, os₁) ∧
    run (Setup.step ⟨.optaneStudy, .concurrency, true, 1, 7⟩) (a, os₁)
        [⟨ALLOC_SIZE, true⟩, ⟨5, true⟩] = .ok (pointers, (b, os₂)) ∧
    ∀ path ∈ (paths os₂.log).drop (paths spacedOs.log).length,
      StartsWith path (OptaneStudy.directory 1) :=
  ⟨_, _, _, _, _, rfl, rfl, (channel_placement_iff ⟨.optaneStudy, .concurrency, true, 1, 7⟩ rfl rfl
    (show Setup.init _ (.new (Vector.replicate 100 0) (Vector.replicate 100 0) 1) spacedOs = .ok (_, _) from rfl)
    (show run _ _ [⟨ALLOC_SIZE, true⟩, ⟨5, true⟩] = .ok (_, (_, _)) from rfl)).1.mpr (.inr (.inl rfl))⟩

/-- Channel 1, garbage 2: the second region is mapped from `/mnt/aep2/test1`. -/
theorem channel_misplaced : ∃ a os₁ b os₂ pointers,
    Setup.init ⟨.optaneStudy, .concurrency, true, 1, 7⟩
      (.new (Vector.replicate 100 0) (Vector.replicate 100 0) 2) spacedOs = .ok (a, os₁) ∧
    run (Setup.step ⟨.optaneStudy, .concurrency, true, 1, 7⟩) (a, os₁)
        [⟨ALLOC_SIZE, true⟩] = .ok (pointers, (b, os₂)) ∧
    paths os₂.log = ["/mnt/aep1/test70", "/mnt/aep2/test1"] ∧
    ¬ ∀ path ∈ (paths os₂.log).drop (paths spacedOs.log).length,
      StartsWith path (OptaneStudy.directory 1) := by
  refine ⟨_, _, _, _, _, rfl, rfl, by decide, by decide⟩

end RwSep.Allocator
