import RwSep.Allocator.Capacity

namespace RwSep.Allocator

open RwSep.Data RwSep.Execution RwSep.Packing

/-! How many regions a workload needs. -/

def Request.rounded (request : Request) : Nat := (request.size.toNat + 63) / 64 * 64

/-- The rounded bytes that a list of requests takes from one pool. -/
def demand (pool : Bool) (requests : List Request) : Nat :=
  ((requests.filter (·.onNvm = pool)).map Request.rounded).sum

/-- The pool stands for a packer that so many bytes have filled. -/
def Loaded (pool : Bool) (total : Nat) (a : Fastalloc) : Prop :=
  ∃ packer : Packer, Represents ALLOC_SIZE (a.pool pool) packer ∧ packer.Filled ALLOC_SIZE.toNat total

variable {growth : Fastalloc → Fill} {a b after : Fastalloc} {os os' : Os} {request : Request}
variable {requests : List Request} {pointer : Word} {pointers : List Word} {pool : Bool} {total : Nat}

theorem demand_cons (pool : Bool) (request : Request) (rest : List Request) :
    demand pool (request :: rest) = (if request.onNvm = pool then request.rounded else 0) + demand pool rest := by
  rw [demand, List.filter_cons]
  by_cases same : request.onNvm = pool
  · simp only [same, decide_true, if_true, List.map_cons, List.sum_cons]
    rfl
  · simp only [same, decide_false, Bool.false_eq_true, if_false, Nat.zero_add]
    rfl

theorem Loaded.regions (loaded : Loaded pool total a) :
    (a.pool pool).cnt.toNat = 1 ∨ (a.pool pool).cnt.toNat / 2 * ALLOC_SIZE.toNat < total := by
  obtain ⟨packer, represents, filled⟩ := loaded
  rw [represents.bin]
  exact filled.bins

theorem Loaded.regions_le (half : Nat) (loaded : Loaded pool total a) (positive : 0 < half)
    (short : total ≤ half * ALLOC_SIZE.toNat) : (a.pool pool).cnt.toNat ≤ 2 * half - 1 := by
  obtain ⟨packer, represents, filled⟩ := loaded
  rw [represents.bin]
  exact filled.bins_le positive short

theorem Loaded.served (loaded : Loaded pool total a) (small : request.onNvm = pool → request.Small)
    (called : step growth (a, os) request = .ok (pointer, (after, os'))) :
    Loaded pool (total + if request.onNvm = pool then request.rounded else 0) after := by
  obtain ⟨packer, represents, filled⟩ := loaded
  have outcome := Fastalloc.allocWith_served called
  by_cases same : request.onNvm = pool
  · subst same
    have short := (small rfl).roundUp_toNat
    have fits : (roundUp request.size).toNat ≤ ALLOC_SIZE.toNat := short ▸ small rfl
    have placed := (outcome.places represents fits).1
    rw [if_pos rfl, Request.rounded, ← short]
    exact ⟨_, placed, filled.place fits⟩
  · rw [if_neg same, Nat.add_zero]
    exact ⟨packer, by rwa [outcome.other_eq (Ne.symm same)], filled⟩

theorem Loaded.ran (loaded : Loaded pool total a)
    (small : ∀ request ∈ requests, request.onNvm = pool → request.Small)
    (ran : run (step growth) (a, os) requests = .ok (pointers, (b, os'))) :
    Loaded pool (total + demand pool requests) b := by
  induction requests generalizing a os pointers total with
  | nil =>
      cases (run_nil.mp ran).2
      exact loaded
  | cons request rest ih =>
      obtain ⟨pointer, ⟨after, osAfter⟩, tail, called, remaining, rfl⟩ := run_cons.mp ran
      rw [demand_cons, ← Nat.add_assoc]
      apply ih _ (fun other member => small other (List.mem_cons_of_mem _ member)) remaining
      exact loaded.served (small request List.mem_cons_self) called

/-- Requests to one pool that together fit half of its table are all served. -/
theorem Loaded.run_exists (growth : Fastalloc → Fill) (os : Os) (loaded : Loaded pool total a)
    (own : ∀ request ∈ requests, request.onNvm = pool ∧ request.Small)
    (short : total + demand pool requests ≤ 50 * ALLOC_SIZE.toNat) :
    ∃ pointers b os', run (step growth) (a, os) requests = .ok (pointers, (b, os')) := by
  induction requests generalizing a os total with
  | nil => exact ⟨[], a, os, rfl⟩
  | cons request rest ih =>
      obtain ⟨same, small⟩ := own request List.mem_cons_self
      rw [demand_cons, ← Nat.add_assoc] at short
      have few : (a.pool pool).cnt.toNat ≤ 99 := loaded.regions_le 50 (by decide) (by omega)
      have entry : HasEntry (a, os) request := .inr (by rw [same]; exact Nat.lt_succ_of_le few)
      obtain ⟨pointer, ⟨after, osAfter⟩, called⟩ := (step_exists_iff growth).mpr entry
      obtain ⟨pointers, b, os', remaining⟩ := ih osAfter (loaded.served (fun _ => small) called)
        (fun other member => own other (List.mem_cons_of_mem _ member)) short
      exact ⟨pointer :: pointers, b, os', run_cons.mpr ⟨pointer, _, pointers, called, remaining, rfl⟩⟩

theorem Setup.Started.loaded {setup : Setup} {dram nvm : Table} {channel : Int}
    (started : setup.Started dram nvm channel os a os') (plain : setup.kind = .plain) (pool : Bool) :
    Loaded pool 0 a := by
  have represents := started.represents pool
  rw [show setup.firstLength = ALLOC_SIZE by rw [Setup.firstLength, plain]] at represents
  exact ⟨_, represents, Packer.Filled.opened _⟩

/-- After `fastalloc::init`, a pool that holds `k` regions has been asked for
more than `k / 2` whole regions, unless `k` is 1; and requests to one pool for
at most 50 regions' worth of bytes are all served, from at most 99 regions. -/
theorem regions_needed (setup : Setup) (plain : setup.kind = .plain) {dram nvm : Table} {channel : Int}
    {os os₁ : Os} {a : Fastalloc} (started : setup.init (.new dram nvm channel) os = .ok (a, os₁)) (pool : Bool)
    {requests : List Request} (small : ∀ request ∈ requests, request.onNvm = pool → request.Small) :
    (∀ pointers b os₂, run setup.step (a, os₁) requests = .ok (pointers, (b, os₂)) →
      ((b.pool pool).cnt.toNat = 1 ∨
        (b.pool pool).cnt.toNat / 2 * ALLOC_SIZE.toNat < demand pool requests) ∧
      (demand pool requests ≤ 50 * ALLOC_SIZE.toNat → (b.pool pool).cnt.toNat ≤ 99)) ∧
    ((∀ request ∈ requests, request.onNvm = pool) → demand pool requests ≤ 50 * ALLOC_SIZE.toNat →
      ∃ pointers b os₂, run setup.step (a, os₁) requests = .ok (pointers, (b, os₂))) := by
  have loaded := (setup.init_started started).loaded plain pool
  rw [setup.step_eq]
  apply And.intro
  · intro pointers b os₂ ran
    have final := loaded.ran small ran
    rw [Nat.zero_add] at final
    exact ⟨final.regions, final.regions_le 50 (by decide)⟩
  · intro own short
    exact loaded.run_exists setup.growth os₁ (fun request member =>
      ⟨own request member, small request member (own request member)⟩) (by rwa [Nat.zero_add])

theorem regions_needed_alternating : ∃ a os₁ pointers b os₂,
    Setup.init ⟨.optaneStudy, .plain, true, 2, 0⟩
      (.new (Vector.replicate 100 0) (Vector.replicate 100 0) 0) spacedOs = .ok (a, os₁) ∧
    run (Setup.step ⟨.optaneStudy, .plain, true, 2, 0⟩) (a, os₁)
      [⟨64, true⟩, ⟨ALLOC_SIZE, true⟩, ⟨64, true⟩, ⟨ALLOC_SIZE, true⟩] = .ok (pointers, (b, os₂)) ∧
    ((b.pool true).cnt.toNat = 1 ∨ (b.pool true).cnt.toNat / 2 * ALLOC_SIZE.toNat <
      demand true [⟨64, true⟩, ⟨ALLOC_SIZE, true⟩, ⟨64, true⟩, ⟨ALLOC_SIZE, true⟩]) :=
  ⟨_, _, _, _, _, rfl, rfl, ((regions_needed ⟨.optaneStudy, .plain, true, 2, 0⟩ rfl
    (show Setup.init _ (.new (Vector.replicate 100 0) (Vector.replicate 100 0) 0) spacedOs = .ok (_, _) from rfl)
    true (by decide)).1 _ _ _ rfl).1⟩

end RwSep.Allocator
