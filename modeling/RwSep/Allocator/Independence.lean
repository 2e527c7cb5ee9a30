import RwSep.Allocator.Capacity

namespace RwSep.Allocator

open RwSep.Data RwSep.Execution

/-! Where a request is served depends on the requests to its own pool only. -/

/-- What decides where a pool serves its next request. -/
structure Gauge where
  cnt : Word
  offset : Word
  left : Word

structure Location where
  onNvm : Bool
  region : Nat
  offset : Word
deriving DecidableEq, Repr

def Pool.gauge (pool : Pool) : Gauge := ⟨pool.cnt, pool.curr - pool.base, pool.left⟩

/-- The newest region and the offset of a pointer just returned from it. -/
def Pool.locate (pool : Pool) (onNvm : Bool) (pointer : Word) : Location :=
  ⟨onNvm, pool.cnt.toNat - 1, pointer - pool.base⟩

def Gauge.serve (onNvm : Bool) (gauge : Gauge) (size : Word) : Location × Gauge :=
  if size ≤ gauge.left then
    (⟨onNvm, gauge.cnt.toNat - 1, gauge.offset⟩,
      { gauge with offset := gauge.offset + size, left := gauge.left - size })
  else (⟨onNvm, gauge.cnt.toNat, 0⟩, ⟨gauge.cnt + 1, size, ALLOC_SIZE - size⟩)

def Fastalloc.gauges (a : Fastalloc) : Bool → Gauge := fun pool => (a.pool pool).gauge

/-- `step`, with the place of the block instead of its address. -/
def locatedStep (growth : Fastalloc → Fill) (state : Fastalloc × Os) (request : Request) :
    Except Stop (Location × Fastalloc × Os) :=
  match step growth state request with
  | .error reason => .error reason
  | .ok (pointer, after, os) =>
      .ok ((after.pool request.onNvm).locate request.onNvm pointer, after, os)

def plan : (Bool → Gauge) → List Request → List Location × (Bool → Gauge)
  | gauges, [] => ([], gauges)
  | gauges, request :: rest =>
      let served := (gauges request.onNvm).serve request.onNvm (roundUp request.size)
      let planned := plan (Function.update gauges request.onNvm served.2) rest
      (served.1 :: planned.1, planned.2)

/-- The plan of a single pool. -/
def planPool (pool : Bool) : Gauge → List Request → List Location × Gauge
  | gauge, [] => ([], gauge)
  | gauge, request :: rest =>
      let served := gauge.serve pool (roundUp request.size)
      let planned := planPool pool served.2 rest
      (served.1 :: planned.1, planned.2)

section Call

variable {growth growth' : Fastalloc → Fill} {a a' after : Fastalloc} {os os' osAfter : Os}
variable {size pointer : Word} {onNvm : Bool} {request : Request} {location : Location}

theorem Served.gauged (outcome : Served growth a os size onNvm pointer after os') :
    (a.gauges onNvm).serve onNvm size =
      ((after.pool onNvm).locate onNvm pointer, after.gauges onNvm) := by
  cases outcome with
  | fit room served other channel =>
      have room' : size ≤ (a.gauges onNvm).left := room
      rw [Gauge.serve, if_pos room']
      simp only [Fastalloc.gauges, Pool.gauge, Pool.locate, Pool.base, served, Pool.take_cnt,
        Pool.take_curr, Pool.take_left, Pool.take_entry, Prod.mk.injEq, Gauge.mk.injEq, true_and, and_true]
      bv_omega
  | grow full bound served other channel =>
      have full' : ¬ size ≤ (a.gauges onNvm).left := BitVec.not_le.mpr full
      have newest := Pool.opened_entry_new (a.pool onNvm) (os.fill (a.fill growth onNvm)).1 ALLOC_SIZE bound
      have base : (after.pool onNvm).base = (os.fill (a.fill growth onNvm)).1 := by
        rw [Pool.base, served, Pool.take_cnt, Pool.take_entry, Pool.opened_cnt, Nat.add_sub_cancel, newest]
      have opened : (after.pool onNvm).cnt = (a.pool onNvm).cnt + 1 := by
        rw [served]
        rfl
      rw [Gauge.serve, if_neg full']
      simp only [Fastalloc.gauges, Pool.gauge, Pool.locate, base, opened]
      simp only [served, Pool.take_curr, Pool.opened_curr, Pool.take_left, Pool.opened_left,
        Prod.mk.injEq, Location.mk.injEq, Gauge.mk.injEq, true_and, and_true]
      bv_omega

theorem locatedStep_plan (called : locatedStep growth (a, os) request = .ok (location, (after, osAfter))) :
    (a.gauges request.onNvm).serve request.onNvm (roundUp request.size) =
        (location, after.gauges request.onNvm) ∧
      after.gauges = Function.update a.gauges request.onNvm (after.gauges request.onNvm) := by
  rw [locatedStep] at called
  split at called
  · contradiction
  · rename_i stepped
    cases called
    have outcome := Fastalloc.allocWith_served stepped
    refine ⟨outcome.gauged, funext fun pool => ?_⟩
    by_cases same : pool = request.onNvm
    · subst same
      rw [Function.update_self]
    · rw [Function.update_of_ne same, Fastalloc.gauges, outcome.other_eq same]
      rfl

theorem locatedStep_exists_iff (growth : Fastalloc → Fill) {state : Fastalloc × Os} :
    (∃ location next, locatedStep growth state request = .ok (location, next)) ↔ HasEntry state request := by
  rw [← step_exists_iff growth]
  apply Iff.intro
  · intro found
    obtain ⟨location, next, called⟩ := found
    rw [locatedStep] at called
    split at called
    · contradiction
    · rename_i stepped
      exact ⟨_, _, stepped⟩
  · intro found
    obtain ⟨pointer, ⟨after, os⟩, stepped⟩ := found
    refine ⟨(after.pool request.onNvm).locate request.onNvm pointer, (after, os), ?_⟩
    simp only [locatedStep, stepped]

/-- Whether a call returns, and where, is decided by the gauge of its own pool. -/
theorem locatedStep_local (growth' : Fastalloc → Fill) (os' : Os)
    (same : a.gauges request.onNvm = a'.gauges request.onNvm)
    (called : locatedStep growth (a, os) request = .ok (location, (after, osAfter))) :
    ∃ after' osAfter', locatedStep growth' (a', os') request = .ok (location, (after', osAfter')) ∧
      after'.gauges = Function.update a'.gauges request.onNvm (after.gauges request.onNvm) := by
  have entry : HasEntry (a', os') request := by
    have entry := (locatedStep_exists_iff growth).mp ⟨_, _, called⟩
    simp only [Fastalloc.gauges, Pool.gauge, Gauge.mk.injEq] at same
    simp only [HasEntry, same.1, same.2.2] at entry ⊢
    exact entry
  obtain ⟨location', ⟨after', osAfter'⟩, called'⟩ := (locatedStep_exists_iff growth').mpr entry
  obtain ⟨served, _⟩ := locatedStep_plan called
  obtain ⟨served', updated'⟩ := locatedStep_plan called'
  rw [← same, served] at served'
  simp only [Prod.mk.injEq] at served'
  refine ⟨after', osAfter', ?_, ?_⟩
  · rw [called', served'.1]
  · rw [served'.2]
    exact updated'

end Call

section Run

variable {growth growth' : Fastalloc → Fill} {a a' b : Fastalloc} {os os' osFinal : Os}
variable {requests before rest : List Request} {locations : List Location} {first second : Request}

/-- A run serves its requests as planned from the gauges it starts with. -/
theorem run_plan (ran : run (locatedStep growth) (a, os) requests = .ok (locations, (b, osFinal))) :
    plan a.gauges requests = (locations, b.gauges) := by
  induction requests generalizing a os locations with
  | nil =>
      obtain ⟨rfl, same⟩ := run_nil.mp ran
      cases same
      rfl
  | cons request rest ih =>
      obtain ⟨location, ⟨after, osAfter⟩, tail, called, remaining, rfl⟩ := run_cons.mp ran
      obtain ⟨served, updated⟩ := locatedStep_plan called
      simp only [plan, served]
      rw [← updated, ih remaining]

theorem plan_pool (gauges : Bool → Gauge) (requests : List Request) (pool : Bool) :
    planPool pool (gauges pool) (requests.filter (·.onNvm = pool)) =
      ((plan gauges requests).1.filter (·.onNvm = pool), (plan gauges requests).2 pool) := by
  induction requests generalizing gauges with
  | nil => rfl
  | cons request rest ih =>
      have named : ((gauges request.onNvm).serve request.onNvm (roundUp request.size)).1.onNvm =
          request.onNvm := by
        rw [Gauge.serve]
        split <;> rfl
      have later := ih (Function.update gauges request.onNvm
        ((gauges request.onNvm).serve request.onNvm (roundUp request.size)).2)
      by_cases same : request.onNvm = pool
      · subst same
        rw [Function.update_self] at later
        simp only [List.filter_cons, decide_true, if_true, plan, planPool, named, later]
      · rw [Function.update_of_ne (Ne.symm same)] at later
        simp only [List.filter_cons, same, decide_false, Bool.false_eq_true, if_false, plan, named, later]

theorem run_congr (growth' : Fastalloc → Fill) (os' : Os) (same : a.gauges = a'.gauges)
    (ran : run (locatedStep growth) (a, os) requests = .ok (locations, (b, osFinal))) :
    ∃ b' osFinal', run (locatedStep growth') (a', os') requests = .ok (locations, (b', osFinal')) ∧
      b.gauges = b'.gauges := by
  induction requests generalizing a a' os os' locations with
  | nil =>
      obtain ⟨rfl, final⟩ := run_nil.mp ran
      cases final
      exact ⟨a', os', rfl, same⟩
  | cons request rest ih =>
      obtain ⟨location, ⟨after, osAfter⟩, tail, called, remaining, rfl⟩ := run_cons.mp ran
      obtain ⟨after', osAfter', called', updated'⟩ :=
        locatedStep_local growth' os' (congrFun same request.onNvm) called
      have same' : after.gauges = after'.gauges := by
        rw [updated', (locatedStep_plan called).2, same]
        simp
      obtain ⟨b', osFinal', remaining', final⟩ := ih osAfter' same' remaining
      exact ⟨b', osFinal', run_cons.mpr ⟨_, _, _, called', remaining', rfl⟩, final⟩

/-- Two neighbouring requests to different pools may be exchanged. -/
theorem run_swap (apart : first.onNvm ≠ second.onNvm)
    (ran : run (locatedStep growth) (a, os) (before ++ first :: second :: rest) = .ok (locations, (b, osFinal))) :
    ∃ head atFirst atSecond tail b' osFinal', head.length = before.length ∧
      locations = head ++ atFirst :: atSecond :: tail ∧
      run (locatedStep growth) (a, os) (before ++ second :: first :: rest) =
        .ok (head ++ atSecond :: atFirst :: tail, (b', osFinal')) ∧
      b.gauges = b'.gauges := by
  induction before generalizing a os locations with
  | nil =>
      obtain ⟨atFirst, ⟨one, osOne⟩, tail, called₁, remaining₁, rfl⟩ := run_cons.mp ran
      obtain ⟨atSecond, ⟨two, osTwo⟩, tail, called₂, remaining, rfl⟩ := run_cons.mp remaining₁
      have updated₁ := (locatedStep_plan called₁).2
      have updated₂ := (locatedStep_plan called₂).2
      have kept : one.gauges second.onNvm = a.gauges second.onNvm := by
        rw [updated₁, Function.update_of_ne (Ne.symm apart)]
      obtain ⟨one', osOne', called₂', updated₂'⟩ := locatedStep_local growth os kept called₂
      have kept' : a.gauges first.onNvm = one'.gauges first.onNvm := by
        rw [updated₂', Function.update_of_ne apart]
      obtain ⟨two', osTwo', called₁', updated₁'⟩ := locatedStep_local growth osOne' kept' called₁
      have inOrder := updated₂.trans (congrArg (Function.update · second.onNvm _) updated₁)
      have same : two.gauges = two'.gauges := by
        rw [inOrder, updated₁', updated₂', Function.update_comm apart]
      obtain ⟨b', osFinal', remaining', final⟩ := run_congr growth osTwo' same remaining
      exact ⟨[], atFirst, atSecond, tail, b', osFinal', rfl, rfl,
        run_cons.mpr ⟨_, _, _, called₂', run_cons.mpr ⟨_, _, _, called₁', remaining', rfl⟩, rfl⟩, final⟩
  | cons request before ih =>
      obtain ⟨location, ⟨after, osAfter⟩, tail, called, remaining, rfl⟩ := run_cons.mp ran
      obtain ⟨head, atFirst, atSecond, tail, b', osFinal', length, rfl, swapped, final⟩ := ih remaining
      refine ⟨location :: head, atFirst, atSecond, tail, b', osFinal', ?_, rfl, ?_, final⟩
      · rw [List.length_cons, List.length_cons, length]
      · exact run_cons.mpr ⟨_, _, _, called, swapped, rfl⟩

end Run

namespace Setup

def locatedStep (setup : Setup) : Fastalloc × Os → Request → Except Stop (Location × Fastalloc × Os) :=
  Allocator.locatedStep setup.growth

variable {setup : Setup} {dram nvm : Table} {channel : Int} {os os' : Os} {a : Fastalloc}

theorem Started.gauges (started : setup.Started dram nvm channel os a os') :
    a.gauges = fun _ => ⟨1, 0, setup.firstLength⟩ := by
  funext pool
  have represents := started.represents pool
  have cnt : (a.pool pool).cnt = 1 := BitVec.eq_of_toNat_eq (started.cnt pool)
  have left : (a.pool pool).left = setup.firstLength := BitVec.eq_of_toNat_eq represents.left
  have curr := represents.curr
  simp only [Packing.Packer.opened] at curr
  simp only [Fastalloc.gauges, Pool.gauge, Pool.base, cnt, left, curr]
  simp

end Setup

/-- Two runs after the `init` of one class, of objects in any surroundings.
The requests to a pool are served at places that depend on these requests
alone, and neighbouring requests to different pools may be exchanged. -/
theorem pools_independent {setup setup' : Setup} (kind : setup.kind = setup'.kind)
    {dram nvm dram' nvm' : Table} {channel channel' : Int} {os os' os₁ os₁' : Os} {a a' : Fastalloc}
    (started : setup.init (.new dram nvm channel) os = .ok (a, os₁))
    (started' : setup'.init (.new dram' nvm' channel') os' = .ok (a', os₁')) :
    (∀ {requests requests' : List Request} {locations locations' : List Location}
        {final final' : Fastalloc × Os},
      run setup.locatedStep (a, os₁) requests = .ok (locations, final) →
      run setup'.locatedStep (a', os₁') requests' = .ok (locations', final') →
      ∀ pool, requests.filter (·.onNvm = pool) = requests'.filter (·.onNvm = pool) →
        locations.filter (·.onNvm = pool) = locations'.filter (·.onNvm = pool)) ∧
    ∀ {before rest : List Request} {first second : Request} {locations : List Location}
        {final : Fastalloc × Os}, first.onNvm ≠ second.onNvm →
      run setup.locatedStep (a, os₁) (before ++ first :: second :: rest) = .ok (locations, final) →
      ∃ head atFirst atSecond tail final', head.length = before.length ∧
        locations = head ++ atFirst :: atSecond :: tail ∧
        run setup.locatedStep (a, os₁) (before ++ second :: first :: rest) =
          .ok (head ++ atSecond :: atFirst :: tail, final') := by
  have opened := setup.init_started started
  have opened' := setup'.init_started started'
  have length : setup.firstLength = setup'.firstLength := by
    rw [Setup.firstLength, Setup.firstLength, kind]
  have same : a.gauges = a'.gauges := by rw [opened.gauges, opened'.gauges, length]
  apply And.intro
  · intro requests requests' locations locations' final final' ran ran' pool equal
    have planned := plan_pool a.gauges requests pool
    have planned' := plan_pool a'.gauges requests' pool
    rw [run_plan ran] at planned
    rw [run_plan ran', ← same, ← equal, planned] at planned'
    exact congrArg Prod.fst planned'
  · intro before rest first second locations final apart ran
    obtain ⟨head, atFirst, atSecond, tail, b', osFinal', length, split, swapped, _⟩ := run_swap apart ran
    exact ⟨head, atFirst, atSecond, tail, (b', osFinal'), length, split, swapped⟩

theorem pools_independent_mixed : ∃ locations locations' final final' a a' os₁ os₁',
    Setup.init ⟨.optaneStudy, .plain, true, 2, 0⟩
      (.new (Vector.replicate 100 0) (Vector.replicate 100 0) 0) spacedOs = .ok (a, os₁) ∧
    Setup.init ⟨.fastallocate, .plain, false, 0, 0⟩
      (.new (Vector.replicate 100 7) (Vector.replicate 100 7) 1) spacedOs = .ok (a', os₁') ∧
    run (Setup.locatedStep ⟨.optaneStudy, .plain, true, 2, 0⟩) (a, os₁)
      [⟨5, false⟩, ⟨ALLOC_SIZE, true⟩, ⟨1 <<< 63, false⟩, ⟨1, true⟩] = .ok (locations, final) ∧
    run (Setup.locatedStep ⟨.fastallocate, .plain, false, 0, 0⟩) (a', os₁')
      [⟨ALLOC_SIZE, true⟩, ⟨1, true⟩, ⟨8, false⟩] = .ok (locations', final') ∧
    locations.filter (·.onNvm = true) = locations'.filter (·.onNvm = true) :=
  ⟨_, _, _, _, _, _, _, _, rfl, rfl, rfl, rfl,
    (pools_independent
      (show Setup.kind ⟨.optaneStudy, .plain, true, 2, 0⟩ = Setup.kind ⟨.fastallocate, .plain, false, 0, 0⟩ from rfl)
      (show Setup.init _ (.new (Vector.replicate 100 0) (Vector.replicate 100 0) 0) spacedOs = .ok (_, _) from rfl)
      (show Setup.init _ (.new (Vector.replicate 100 7) (Vector.replicate 100 7) 1) spacedOs = .ok (_, _) from rfl)).1
      (show run _ _ [⟨5, false⟩, ⟨ALLOC_SIZE, true⟩, ⟨1 <<< 63, false⟩, ⟨1, true⟩] = .ok (_, _) from rfl)
      (show run _ _ [⟨ALLOC_SIZE, true⟩, ⟨1, true⟩, ⟨8, false⟩] = .ok (_, _) from rfl) true rfl⟩

end RwSep.Allocator
