import RwSep.Allocator.Family

namespace RwSep.Allocator

open RwSep.Data RwSep.Execution RwSep.Packing

/-! Blocks handed out by one object lie in its regions and do not overlap. -/

/-- `blocks` of one session: each lies in a region of its pool at a multiple of
64, and no two overlap.  A run with a result used at most 100 regions a pool,
since `alloc` stops with `tableOverrun` otherwise. -/
theorem blocks_isolated (setup : Setup) {dram nvm : Table} {channel : Int} {os os₁ os₂ : Os}
    {a b : Fastalloc} {requests : List Request} {pointers : List Word}
    (started : setup.init (.new dram nvm channel) os = .ok (a, os₁))
    (small : ∀ request ∈ requests, request.Small)
    (ran : run setup.step (a, os₁) requests = .ok (pointers, (b, os₂)))
    (granted : Granted os₂.log) :
    (∀ block ∈ blocks requests pointers,
      ∃ index < (b.pool block.onNvm).cnt.toNat, ∃ region ∈ regions os₂.log,
        region.range = (b.pool block.onNvm).region setup.firstLength index ∧
        block.range.Inside region.range ∧ 64 ∣ block.range.offsetIn region.range) ∧
    (blocks requests pointers).Pairwise fun first second => first.range.Disjoint second.range := by
  have opened := setup.init_started started
  rw [setup.step_eq] at ran
  have inFamily := run_family ran
  have owned : Owned (fun _ : Unit => setup.firstLength) (fun _ => a) os₁.log := by
    obtain ⟨events, grown⟩ := run_log ran
    have fresh : Owned (fun _ : Unit => setup.firstLength) (fun _ => .new dram nvm channel) os.log :=
      .empty fun _ pool => by cases pool <;> rfl
    have after := opened.owned () fresh rfl rfl (Granted.of_append (grown ▸ granted))
    rwa [Function.update_eq_const_of_subsingleton] at after
  have smallCalls : ∀ call ∈ requests.map (Prod.mk ()), call.2.Small := by
    intro call member
    obtain ⟨request, inRequests, rfl⟩ := List.mem_map.mp member
    exact small request inRequests
  obtain ⟨inside, apart⟩ := family_isolated (fun _ => setup.growth_length) (fun _ => setup.firstLength_le)
    (fun _ => opened.represents) owned smallCalls inFamily granted
  rw [handed_single] at inside apart
  apply And.intro
  · intro block member
    exact inside ((), block) (List.mem_map_of_mem member)
  · rwa [List.pairwise_map] at apart

theorem blocks_isolated_spaced :
    (blocks [⟨100, true⟩, ⟨ALLOC_SIZE, true⟩, ⟨1, true⟩, ⟨5, false⟩]
      [0x4000400000000, 0x4000800000000, 0x4000c00000000, 0x10000000000]).Pairwise
        fun first second => first.range.Disjoint second.range :=
  (blocks_isolated ⟨.optaneStudy, .concurrency, true, 1, 7⟩
    (show Setup.init _ (.new (Vector.replicate 100 0) (Vector.replicate 100 0) 1) spacedOs = .ok (_, _) from rfl)
    (by decide) rfl
    ⟨by decide, (show List.Pairwise _ _ by decide).imp Range.Separate.disjoint⟩).2

end RwSep.Allocator
