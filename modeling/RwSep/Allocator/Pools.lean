import RwSep.Allocator.Object

namespace RwSep.Allocator

open RwSep.Data

/-! What one `alloc` call can do, said once for both pools.

The object keeps two sets of fields, `dram*` and `nvm*`.  `Fastalloc.pool`
reads one set off as a record, and `Served` lists the outcomes of a call in
terms of these records: the requested pool serves from its current region or
from a new one, the other pool and the channel stay as they are.
-/

structure Pool where
  table : Table
  curr : Word
  left : Word
  cnt : Word

def Fastalloc.pool (a : Fastalloc) : Bool → Pool
  | true => ⟨a.nvm, a.nvmCurr, a.nvmLeft, a.nvmCnt⟩
  | false => ⟨a.dram, a.dramCurr, a.dramLeft, a.dramCnt⟩

def Pool.take (pool : Pool) (size : Word) : Pool :=
  { pool with curr := pool.curr + size, left := pool.left - size }

def Pool.opened (pool : Pool) (base length : Word) (bound : pool.cnt.toNat < 100) : Pool :=
  { table := pool.table.set pool.cnt.toNat base bound, curr := base, left := length, cnt := pool.cnt + 1 }

def Pool.entry (pool : Pool) (index : Nat) : Word := pool.table[index]?.getD 0

/-- Length of a pool's region number `index`: only the region opened by `init`
may differ from `ALLOC_SIZE`. -/
def regionLength (first : Word) (index : Nat) : Nat :=
  if index = 0 then first.toNat else ALLOC_SIZE.toNat

theorem regionLength_le {first : Word} (fits : first.toNat ≤ ALLOC_SIZE.toNat) (index : Nat) :
    regionLength first index ≤ ALLOC_SIZE.toNat := by
  unfold regionLength
  split <;> omega

def Pool.region (first : Word) (pool : Pool) (index : Nat) : Range :=
  ⟨pool.entry index, regionLength first index⟩

def Pool.unused (table : Table) : Pool := ⟨table, 0, 0, 0⟩

def Fastalloc.fill (growth : Fastalloc → Fill) (a : Fastalloc) : Bool → Fill
  | true => growth a
  | false => ⟨[], .newChar ALLOC_SIZE⟩

/-- The outcomes of a call that asks pool `onNvm` for `size` (rounded) bytes. -/
inductive Served (growth : Fastalloc → Fill) (a : Fastalloc) (os : Os) (size : Word) (onNvm : Bool) :
    Word → Fastalloc → Os → Prop where
  | fit {after : Fastalloc}
      (room : size ≤ (a.pool onNvm).left)
      (served : after.pool onNvm = (a.pool onNvm).take size)
      (other : after.pool (!onNvm) = a.pool (!onNvm))
      (channel : after.channel = a.channel) :
      Served growth a os size onNvm (a.pool onNvm).curr after os
  | grow {after : Fastalloc}
      (full : (a.pool onNvm).left < size)
      (bound : (a.pool onNvm).cnt.toNat < 100)
      (served : after.pool onNvm =
        ((a.pool onNvm).opened (os.fill (a.fill growth onNvm)).1 ALLOC_SIZE bound).take size)
      (other : after.pool (!onNvm) = a.pool (!onNvm))
      (channel : after.channel = a.channel) :
      Served growth a os size onNvm (os.fill (a.fill growth onNvm)).1 after
        (os.fill (a.fill growth onNvm)).2

/-! # Pools and tables -/

namespace Pool

variable {pool : Pool} {size base length : Word} {index : Nat} {bound : pool.cnt.toNat < 100}

@[simp] theorem unused_cnt {table : Table} : (unused table).cnt = 0 := rfl

theorem unused_bound (table : Table) : (unused table).cnt.toNat < 100 := by
  rw [unused_cnt]
  decide

@[simp] theorem take_zero : pool.take 0 = pool := by simp [take]

@[simp] theorem take_cnt : (pool.take size).cnt = pool.cnt := rfl

@[simp] theorem take_curr : (pool.take size).curr = pool.curr + size := rfl

@[simp] theorem take_left : (pool.take size).left = pool.left - size := rfl

@[simp] theorem take_entry : (pool.take size).entry index = pool.entry index := rfl

@[simp] theorem opened_curr : (pool.opened base length bound).curr = base := rfl

@[simp] theorem opened_left : (pool.opened base length bound).left = length := rfl

@[simp] theorem opened_cnt : (pool.opened base length bound).cnt.toNat = pool.cnt.toNat + 1 := by
  change (pool.cnt + 1).toNat = pool.cnt.toNat + 1
  bv_omega

@[simp] theorem opened_entry_new (pool : Pool) (base length : Word) (bound : pool.cnt.toNat < 100) :
    (pool.opened base length bound).entry pool.cnt.toNat = base := by
  simp [opened, entry, bound]

theorem opened_entry_old (old : index < pool.cnt.toNat) :
    (pool.opened base length bound).entry index = pool.entry index := by
  have different : pool.cnt.toNat ≠ index := by omega
  simp [opened, entry, Vector.getElem?_set_ne, different]

end Pool

theorem Table.load_store {table : Table} {index pointer : Word} (bound : index.toNat < 100) :
    Table.load (table.set index.toNat pointer bound) index = .ok pointer := by
  simp [Table.load, bound]

namespace Fastalloc

variable {growth : Fastalloc → Fill} {a after : Fastalloc} {os os' : Os}
variable {length size pointer : Word} {onNvm : Bool}

theorem openDram_ok (bound : a.dramCnt.toNat < 100) :
    a.openDram os length =
      .ok ({ a with
          dram := a.dram.set a.dramCnt.toNat (os.obtain (.newChar length)).1 bound
          dramCurr := (os.obtain (.newChar length)).1
          dramLeft := length
          dramCnt := a.dramCnt + 1 },
        (os.obtain (.newChar length)).2) := by
  simp [openDram, Table.store, bound, Table.load_store, bind, Except.bind, pure, Except.pure]

theorem openDram_overrun (full : ¬ a.dramCnt.toNat < 100) :
    a.openDram os length = .error .tableOverrun := by
  simp [openDram, Table.store, full, bind, Except.bind]

theorem storeNvm_ok (bound : a.nvmCnt.toNat < 100) (discarded : List Acquire) (kept : Acquire) :
    a.storeNvm os (discarded ++ [kept]) =
      .ok ({ a with nvm := a.nvm.set a.nvmCnt.toNat (os.fill ⟨discarded, kept⟩).1 bound },
        (os.fill ⟨discarded, kept⟩).2) := by
  induction discarded generalizing a os with
  | nil => simp [storeNvm, Table.store, bound, Os.fill, Os.obtainAll, bind, Except.bind, pure, Except.pure]
  | cons acquire rest ih =>
      simp only [List.cons_append, storeNvm, Table.store, bound, dite_true, bind, Except.bind]
      rw [ih (a := { a with nvm := a.nvm.set a.nvmCnt.toNat (os.obtain acquire).1 bound }) bound]
      simp [Os.fill, Os.obtainAll]

theorem openNvm_ok (bound : a.nvmCnt.toNat < 100) (fill : Fill) :
    a.openNvm os length fill =
      .ok ({ a with
          nvm := a.nvm.set a.nvmCnt.toNat (os.fill fill).1 bound
          nvmCurr := (os.fill fill).1
          nvmLeft := length
          nvmCnt := a.nvmCnt + 1 },
        (os.fill fill).2) := by
  simp [openNvm, storeNvm_ok bound, Table.load_store, bind, Except.bind, pure, Except.pure]

theorem openNvm_overrun (full : ¬ a.nvmCnt.toNat < 100) (fill : Fill) :
    a.openNvm os length fill = .error .tableOverrun := by
  cases first : fill.overwritten <;>
    simp [openNvm, storeNvm, Table.store, full, first, bind, Except.bind]

theorem openPools_ok (a : Fastalloc) (os : Os) (length : Word)
    (dramBound : (a.pool false).cnt.toNat < 100) (nvmBound : (a.pool true).cnt.toNat < 100)
    (fill : Word → Fill) :
    ∃ after, a.openPools os length (fun a => fill a.nvmCnt) =
        .ok (after, ((os.obtain (.newChar length)).2.fill (fill a.nvmCnt)).2) ∧
      after.pool false = (a.pool false).opened (os.obtain (.newChar length)).1 length dramBound ∧
      after.pool true =
        (a.pool true).opened ((os.obtain (.newChar length)).2.fill (fill a.nvmCnt)).1 length nvmBound ∧
      after.channel = a.channel := by
  have dramBound' : a.dramCnt.toNat < 100 := dramBound
  have nvmBound' : a.nvmCnt.toNat < 100 := nvmBound
  simp only [openPools, openDram_ok dramBound', bind, Except.bind]
  exact ⟨_, openNvm_ok (by exact nvmBound') (fill a.nvmCnt), rfl, rfl, rfl⟩

theorem allocWith_served
    (result : a.allocWith growth os size onNvm = .ok (pointer, after, os')) :
    Served growth a os (roundUp size) onNvm pointer after os' := by
  cases onNvm with
  | true =>
      simp only [allocWith, if_true] at result
      by_cases full : roundUp size > a.nvmLeft
      · by_cases bound : a.nvmCnt.toNat < 100
        · simp only [full, if_true, openNvm_ok bound, bind, Except.bind, pure, Except.pure,
            Except.ok.injEq, Prod.mk.injEq] at result
          obtain ⟨rfl, rfl, rfl⟩ := result
          exact .grow full bound rfl rfl rfl
        · simp [full, openNvm_overrun bound, bind, Except.bind] at result
      · simp only [full, if_false, pure, Except.pure, Except.ok.injEq, Prod.mk.injEq] at result
        obtain ⟨rfl, rfl, rfl⟩ := result
        exact .fit (BitVec.not_lt.mp full) rfl rfl rfl
  | false =>
      simp only [allocWith, Bool.false_eq_true, if_false] at result
      by_cases full : roundUp size > a.dramLeft
      · by_cases bound : a.dramCnt.toNat < 100
        · simp only [full, if_true, openDram_ok bound, bind, Except.bind, pure, Except.pure,
            Except.ok.injEq, Prod.mk.injEq] at result
          obtain ⟨rfl, rfl, rfl⟩ := result
          exact .grow full bound rfl rfl rfl
        · simp [full, openDram_overrun bound, bind, Except.bind] at result
      · simp only [full, if_false, pure, Except.pure, Except.ok.injEq, Prod.mk.injEq] at result
        obtain ⟨rfl, rfl, rfl⟩ := result
        exact .fit (BitVec.not_lt.mp full) rfl rfl rfl

/-- `alloc` has a result unless it needs a region its table has no entry for. -/
theorem allocWith_exists (growth : Fastalloc → Fill) (os : Os)
    (room : roundUp size ≤ (a.pool onNvm).left ∨ (a.pool onNvm).cnt.toNat < 100) :
    ∃ pointer after os', a.allocWith growth os size onNvm = .ok (pointer, after, os') := by
  cases onNvm with
  | true =>
      by_cases full : roundUp size > a.nvmLeft
      · have bound := room.resolve_left (BitVec.not_le.mpr full)
        simp only [pool] at bound
        simp [allocWith, full, openNvm_ok bound, bind, Except.bind, pure, Except.pure]
      · simp [allocWith, full, pure, Except.pure]
  | false =>
      by_cases full : roundUp size > a.dramLeft
      · have bound := room.resolve_left (BitVec.not_le.mpr full)
        simp only [pool] at bound
        simp [allocWith, full, openDram_ok bound, bind, Except.bind, pure, Except.pure]
      · simp [allocWith, full, pure, Except.pure]

end Fastalloc

end RwSep.Allocator
