import RwSep.Benchmark.LatCrash

namespace RwSep.Benchmark

open RwSep.Data RwSep.Execution RwSep.X86

/-! The relaxed persistency tests of lat.cpp, in a crash.

Their visits pass no fence.  What `random()` may order at the start of a lap is all
that makes what they store persistent.
-/

/-- The memory at the start of the lap under way, and before the first lap that of the worker. -/
def lapStart (wrMethod : WrMethod) (memory linked : Memory) (laps : List (List Word)) : Nat → Memory
  | 0 => memory
  | begun + 1 => afterVisits wrMethod linked (laps.take begun).flatten

def lapBody (wrMethod : WrMethod) (startingPoint : Word) (visited : List Word) : List LatInstr :=
  .load startingPoint :: (visited.map Turn.visit).flatMap (Turn.code wrMethod)

section Laps

variable {config : LatConfig} {wrMethod : WrMethod} {world : LatWorld} {baseAddr byte : Word} {unitNum : Nat}
variable {heap : Heap} {memory : Memory} {links script before part : List LatInstr} {laps : List (List Word)}
variable {turns : List Turn} {turn : Turn} {ordered : Bool} {event : LatEvent}

theorem lap_code (wrMethod : WrMethod) (world : LatWorld) (baseAddr : Word) (unitNum : Nat) (lap : List Word × Nat) :
    (numberedTurns world baseAddr unitNum lap).flatMap (Turn.code wrMethod) =
      .random :: lapBody wrMethod (unitAt baseAddr (world.random lap.2 % unitNum)) lap.1 := rfl

theorem underway_random {rest : List LatInstr} :
    (eventsOf () (underway LatInstr.act before rest () memory).log).count .random = before.count .random := by
  rw [underway_events]
  apply events_count
  intro instr memory
  cases instr <;> rfl

theorem relaxed_unfenced (relaxed : ¬ wrMethod.Strict) (turn : Turn) : .sfence ∉ turn.code wrMethod := by
  cases turn <;> cases wrMethod <;> simp [Turn.code, WrMethod.code, WrMethod.Strict] at relaxed ⊢

theorem unfenced_events (unfenced : .sfence ∉ script) (undrawn : ordered = true → .random ∉ script)
    (member : event ∈ (latRun script memory).events) : ¬ event.Fences ordered := by
  intro fences
  obtain ⟨instr, inScript, _, store, recorded⟩ := runScript_event member
  cases instr with
  | random =>
      cases List.mem_singleton.mp recorded
      exact undrawn fences inScript
  | sfence => exact unfenced inScript
  | addTen addr => rcases List.mem_pair.mp recorded with rfl | rfl <;> exact fences
  | _ =>
      cases List.mem_singleton.mp recorded
      exact fences

theorem lapBody_undrawn (wrMethod : WrMethod) (startingPoint : Word) (visited : List Word) :
    .random ∉ lapBody wrMethod startingPoint visited := by
  intro member
  rcases List.mem_cons.mp member with same | visiting
  · contradiction
  · obtain ⟨turn, inVisits, drawn⟩ := List.mem_flatMap.mp visiting
    obtain ⟨p, _, rfl⟩ := List.mem_map.mp inVisits
    cases wrMethod <;> simp [Turn.code, WrMethod.code] at drawn

/-- Each lap calls `random()` once. -/
theorem laps_drawn (world : LatWorld) (baseAddr : Word) (unitNum : Nat) (wrMethod : WrMethod) (laps : List (List Word × Nat)) :
    ((laps.flatMap (numberedTurns world baseAddr unitNum)).flatMap (Turn.code wrMethod)).count .random = laps.length := by
  induction laps with
  | nil => rfl
  | cons lap rest ih =>
      have here : ((numberedTurns world baseAddr unitNum lap).flatMap (Turn.code wrMethod)).count .random = 1 := by
        rw [lap_code, List.count_cons_self, List.count_eq_zero.mpr (lapBody_undrawn _ _ _)]
      rw [List.flatMap_cons, List.flatMap_append, List.count_append, ih, here, List.length_cons, Nat.add_comm]

theorem SetsLinks.undrawn (sets : SetsLinks baseAddr unitNum links) : .random ∉ links := by
  intro member
  obtain ⟨_, _, _, same⟩ := sets _ member
  contradiction

/-- A worker links its units, or is in the lap that the last `random()` has opened. -/
theorem lap_under_way (sets : SetsLinks baseAddr unitNum links)
    (shorter : before <+: workerScript config world baseAddr unitNum links laps) :
    before <+: links ∨ ∃ (front : List (List Word × Nat)) (lap : List Word × Nat) (more : List LatInstr),
      before = links ++ (front.flatMap (numberedTurns world baseAddr unitNum)).flatMap (Turn.code config.wrMethod) ++
        .random :: more ∧
      .random :: more <+: (numberedTurns world baseAddr unitNum lap).flatMap (Turn.code config.wrMethod) ∧
      .random ∉ more ∧ before.count .random = front.length + 1 ∧ front.map Prod.fst ++ [lap.1] <+: laps := by
  rcases within_or_past shorter with linking | ⟨chasing, rfl, within⟩
  · exact .inl linking
  · rw [chaseTurns, List.flatMap_assoc] at within
    rcases prefix_marked (lap_code config.wrMethod world baseAddr unitNum) within with
      rfl | ⟨front, lap, behind, more, split, rfl, inBody⟩
    · exact .inl (by rw [List.append_nil])
    · have undrawn : .random ∉ more := fun member => lapBody_undrawn _ _ _ (inBody.subset member)
      have numbered : laps.zipIdx.map Prod.fst = laps := by simp
      rw [← List.flatMap_assoc]
      refine .inr ⟨front, lap, more, by rw [List.append_assoc], ?_, undrawn, ?_, ?_⟩
      · rw [lap_code]
        exact List.cons_prefix_cons.mpr ⟨rfl, inBody⟩
      · rw [List.count_append, List.count_append, List.count_eq_zero.mpr sets.undrawn, laps_drawn, List.count_cons_self,
          List.count_eq_zero.mpr undrawn]
        omega
      · rw [← numbered, split, List.map_append, List.map_cons]
        exact ⟨behind.map Prod.fst, by simp⟩

theorem front_memory (front : List (List Word × Nat)) (heap : Heap) :
    (heap.perform (links ++ (front.flatMap (numberedTurns world baseAddr unitNum)).flatMap (Turn.code wrMethod))).memory =
      afterVisits wrMethod (heap.perform links).memory (front.map Prod.fst).flatten := by
  rw [perform_append, turns_memory, laps_visited]

end Laps

section Workers

variable {config : LatConfig} {world : LatWorld} {baseAddr wss : Word} {heap : Heap} {worked : WorkerResult}

/-- Relaxed persistency: whenever a chase without fences crashes, nothing that its lap under way has stored need have
reached persistent memory, and nothing at all where `random()` does not order. -/
theorem relaxed_crash (relaxed : ¬ config.wrMethod.Strict) (chases : config.travTp = .chasingPtr)
    (enough : wss.toNat / sizeofUnit ≤ world.tests) (ran : worker config world baseAddr wss heap = .ok worked) :
    ∃ links, SetsLinks baseAddr (wss.toNat / sizeofUnit) links ∧
      let script := workerScript config world baseAddr (wss.toNat / sizeofUnit) links worked.traversal.laps
      let linked := (heap.perform links).memory
      let pool := startScript script () heap.memory
      worked.traversal.heap = heap.perform script ∧
      ∀ schedule now, Pool.interleave (scriptSteps LatInstr.act) pool schedule = some now →
        let begun := (eventsOf () now.log).count .random
        pool.Image (latPersistence false) (scriptSteps LatInstr.act) schedule heap.memory ∧
        ∀ ordered, pool.Image (latPersistence ordered) (scriptSteps LatInstr.act) schedule
          (lapStart config.wrMethod heap.memory linked worked.traversal.laps begun) := by
  obtain ⟨⟨links, sets, performed⟩, _⟩ := worker_perform chases enough ran
  refine ⟨links, sets, performed, ?_⟩
  intro schedule now interleaved begun
  obtain ⟨before, rest, split, length, rfl⟩ := interleave_script.mp interleaved
  have counted : begun = before.count .random := underway_random
  have inScript : before <+: workerScript config world baseAddr (wss.toNat / sizeofUnit) links worked.traversal.laps :=
    split ▸ List.prefix_append before rest
  have unfenced : .sfence ∉ before := by
    intro member
    rcases List.mem_append.mp (inScript.subset member) with linking | turning
    · exact List.count_eq_zero.mp sets.unfenced linking
    · obtain ⟨turn, _, found⟩ := List.mem_flatMap.mp turning
      exact relaxed_unfenced relaxed turn found
  rw [split, counted]
  apply And.intro
  · apply script_image_start length
    intro place
    exact Persistence.not_settled fun _ member => unfenced_events unfenced (fun none => absurd none Bool.false_ne_true) member
  · intro ordered
    rcases lap_under_way sets inScript with linking | ⟨front, lap, more, rfl, _, undrawn, count, within⟩
    · have undrawn : .random ∉ before := fun member => sets.undrawn (linking.subset member)
      rw [List.count_eq_zero.mpr undrawn]
      apply script_image_start length
      intro place
      exact Persistence.not_settled fun _ member => unfenced_events unfenced (fun _ => undrawn) member
    · have taken := List.prefix_iff_eq_take.mp ((List.prefix_append _ _).trans within)
      rw [List.length_map] at taken
      have opened : lapStart config.wrMethod heap.memory (heap.perform links).memory worked.traversal.laps (front.length + 1) =
          (heap.perform (links ++ (front.flatMap (numberedTurns world baseAddr (wss.toNat / sizeofUnit))).flatMap
            (Turn.code config.wrMethod) ++ [.random])).memory := by
        rw [perform_append, random_perform, front_memory, lapStart, ← taken]
      have quiet : .sfence ∉ more := fun member => unfenced (by simp [member])
      rw [count, opened]
      rw [← List.singleton_append, ← List.append_assoc] at length ⊢
      apply script_image_at length
      intro place
      exact Persistence.not_settled fun _ member => unfenced_events quiet (fun _ => undrawn) member

theorem relaxed_crash_two : ∃ worked, worker (twoUnits .wrNt) (unshuffled 2) 4096 512 ⟨fun _ => 7, []⟩ = .ok worked ∧
    ∃ links, SetsLinks 4096 2 links ∧
      let script := workerScript (twoUnits .wrNt) (unshuffled 2) 4096 2 links worked.traversal.laps
      let linked := (Heap.perform ⟨fun _ => 7, []⟩ links).memory
      let pool := startScript script () fun _ => 7
      worked.traversal.heap = Heap.perform ⟨fun _ => 7, []⟩ script ∧
      ∀ schedule now, Pool.interleave (scriptSteps LatInstr.act) pool schedule = some now →
        let begun := (eventsOf () now.log).count .random
        pool.Image (latPersistence false) (scriptSteps LatInstr.act) schedule (fun _ => 7) ∧
        ∀ ordered, pool.Image (latPersistence ordered) (scriptSteps LatInstr.act) schedule
          (lapStart .wrNt (fun _ => 7) linked worked.traversal.laps begun) := by
  obtain ⟨worked, ran⟩ := twoUnits_returns .wrNt
  exact ⟨worked, ran, relaxed_crash (show ¬ (twoUnits .wrNt).wrMethod.Strict from id) rfl (by decide) ran⟩

end Workers

end RwSep.Benchmark
