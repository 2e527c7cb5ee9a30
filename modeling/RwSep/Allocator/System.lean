import RwSep.Data.Word
import Mathlib.Data.List.Pairwise

namespace RwSep.Allocator

open RwSep.Data

/-! What the allocators ask of the system, and the log of what they were given.

`open`, `posix_fallocate` and `mmap` are called in a row on one path; their
three results are kept together as one answer.  The allocator passes the
descriptor on to `mmap` and only prints on a negative `posix_fallocate`.
-/

/-- A request for address space: `new char[length]`, or the
`open` / `posix_fallocate` / `mmap` sequence on a file. -/
inductive Acquire where
  | newChar (length : Word)
  | mapFile (path : String) (length : Word)
deriving DecidableEq, Repr

def Acquire.length : Acquire → Word
  | .newChar length => length
  | .mapFile _ length => length

structure MapAnswer where
  fd : Int
  fallocated : Int
  address : Word
deriving DecidableEq, Repr

def MAP_FAILED : Word := -1

inductive Event where
  | newChar (length address : Word)
  | mapFile (path : String) (length : Word) (answer : MapAnswer)
deriving DecidableEq, Repr

inductive Backing where
  | heap
  | file (path : String)
deriving DecidableEq, Repr

def Acquire.backing : Acquire → Backing
  | .newChar _ => .heap
  | .mapFile path _ => .file path

structure Region where
  range : Range
  backing : Backing
deriving DecidableEq, Repr

def Event.region? : Event → Option Region
  | .newChar length address => some ⟨⟨address, length.toNat⟩, .heap⟩
  | .mapFile path length answer =>
      if answer.address = MAP_FAILED then none
      else some ⟨⟨answer.address, length.toNat⟩, .file path⟩

def Event.path? : Event → Option String
  | .newChar _ _ => none
  | .mapFile path _ _ => some path

/-- The system as the allocators see it: its answer to the next request is a
function of the number of requests so far, chosen by the environment. -/
structure Os where
  newAnswer : Nat → Word
  mapAnswer : Nat → MapAnswer
  log : List Event

def Os.respond (os : Os) : Acquire → Event
  | .newChar length => .newChar length (os.newAnswer os.log.length)
  | .mapFile path length => .mapFile path length (os.mapAnswer os.log.length)

def Event.address : Event → Word
  | .newChar _ address => address
  | .mapFile _ _ answer => answer.address

def Os.obtain (os : Os) (acquire : Acquire) : Word × Os :=
  ((os.respond acquire).address, { os with log := os.log ++ [os.respond acquire] })

/-- Successive pointers stored to one table entry: only the last is kept. -/
structure Fill where
  overwritten : List Acquire
  kept : Acquire
deriving DecidableEq, Repr

def Os.obtainAll (os : Os) : List Acquire → Os
  | [] => os
  | acquire :: rest => (os.obtain acquire).2.obtainAll rest

def Os.fill (os : Os) (fill : Fill) : Word × Os := (os.obtainAll fill.overwritten).obtain fill.kept

def regions (log : List Event) : List Region := log.filterMap Event.region?

def paths (log : List Event) : List String := log.filterMap Event.path?

/-- Every request got a region of the requested length, disjoint from the
regions handed over before it. -/
structure Granted (log : List Event) : Prop where
  obtained : ∀ event ∈ log, event.region?.isSome
  apart : (regions log).Pairwise fun earlier later => earlier.range.Disjoint later.range

@[simp] theorem regions_append (before after : List Event) :
    regions (before ++ after) = regions before ++ regions after := List.filterMap_append ..

@[simp] theorem paths_append (before after : List Event) :
    paths (before ++ after) = paths before ++ paths after := List.filterMap_append ..

namespace Os

variable (os : Os) (acquire : Acquire) (fill : Fill)

theorem respond_region (granted : (os.respond acquire).region?.isSome) :
    (os.respond acquire).region? =
      some ⟨⟨(os.respond acquire).address, acquire.length.toNat⟩, acquire.backing⟩ := by
  cases acquire with
  | newChar length => rfl
  | mapFile path length =>
      simp only [respond, Event.region?] at granted ⊢
      split at granted
      · contradiction
      · rename_i mapped
        rw [if_neg mapped]
        rfl

theorem obtainAll_log (acquires : List Acquire) :
    ∃ events, (os.obtainAll acquires).log = os.log ++ events := by
  induction acquires generalizing os with
  | nil => exact ⟨[], by simp [obtainAll]⟩
  | cons acquire rest ih =>
      obtain ⟨events, grown⟩ := ih (os.obtain acquire).2
      refine ⟨os.respond acquire :: events, ?_⟩
      rw [obtainAll, grown]
      simp [obtain]

theorem fill_log : ∃ events, (os.fill fill).2.log =
    os.log ++ events ++ [(os.obtainAll fill.overwritten).respond fill.kept] := by
  obtain ⟨events, grown⟩ := os.obtainAll_log fill.overwritten
  exact ⟨events, by simp [Os.fill, obtain, grown]⟩

end Os

theorem Granted.of_append {before after : List Event} (granted : Granted (before ++ after)) :
    Granted before where
  obtained event member := granted.obtained event (by simp [member])
  apart := by
    have apart := granted.apart
    rw [regions_append] at apart
    exact (List.pairwise_append.mp apart).1

theorem fill_region {os : Os} {fill : Fill}
    (obtained : ((os.obtainAll fill.overwritten).respond fill.kept).region?.isSome) :
    (⟨⟨(os.fill fill).1, fill.kept.length.toNat⟩, fill.kept.backing⟩ : Region) ∈ regions (os.fill fill).2.log := by
  obtain ⟨events, grown⟩ := os.fill_log fill
  rw [grown, regions_append]
  apply List.mem_append_right
  simp [regions, (os.obtainAll fill.overwritten).respond_region fill.kept obtained, Os.fill, Os.obtain]

/-- `new` that returns has got its region. -/
theorem fill_region_heap {os : Os} {fill : Fill} (heap : fill.kept.backing = .heap) :
    (⟨⟨(os.fill fill).1, fill.kept.length.toNat⟩, fill.kept.backing⟩ : Region) ∈ regions (os.fill fill).2.log := by
  apply fill_region
  cases which : fill.kept with
  | newChar length => rfl
  | mapFile path length =>
      rw [which] at heap
      contradiction

theorem Granted.fill_region {os : Os} {fill : Fill} (granted : Granted (os.fill fill).2.log) :
    (⟨⟨(os.fill fill).1, fill.kept.length.toNat⟩, fill.kept.backing⟩ : Region) ∈
        regions (os.fill fill).2.log ∧
      ∀ earlier ∈ regions os.log,
        earlier.range.Disjoint ⟨(os.fill fill).1, fill.kept.length.toNat⟩ := by
  obtain ⟨events, grown⟩ := os.fill_log fill
  have kept := granted.obtained ((os.obtainAll fill.overwritten).respond fill.kept) (by rw [grown]; simp)
  have last : (⟨⟨(os.fill fill).1, fill.kept.length.toNat⟩, fill.kept.backing⟩ : Region) ∈
      regions [(os.obtainAll fill.overwritten).respond fill.kept] := by
    simp [regions, (os.obtainAll fill.overwritten).respond_region fill.kept kept, Os.fill, Os.obtain]
  have apart := granted.apart
  rw [grown, List.append_assoc, regions_append] at apart
  refine ⟨Allocator.fill_region kept, fun earlier member => ?_⟩
  · refine (List.pairwise_append.mp apart).2.2 earlier member
      ⟨⟨(os.fill fill).1, fill.kept.length.toNat⟩, fill.kept.backing⟩ ?_
    rw [regions_append]
    exact List.mem_append_right _ last

/-- Among regions that do not overlap an address tells its region. -/
theorem regions_unique {log : List Event}
    (apart : (regions log).Pairwise fun earlier later => earlier.range.Disjoint later.range) {left right : Region}
    {address : Word} (leftIn : left ∈ regions log) (rightIn : right ∈ regions log)
    (inLeft : address ∈ left.range) (inRight : address ∈ right.range) : left = right := by
  have symmetric : Std.Symm fun earlier later : Region => earlier.range.Disjoint later.range :=
    ⟨fun _ _ => Range.Disjoint.symm⟩
  by_contra different
  exact apart.forall leftIn rightIn different address inLeft inRight

/-- A system that spaces its answers 8 GiB apart, mappings above heap blocks. -/
def spacedOs : Os where
  newAnswer k := BitVec.ofNat 64 (2 ^ 40 + k * 2 ^ 33)
  mapAnswer k := ⟨3, 0, BitVec.ofNat 64 (2 ^ 50 + k * 2 ^ 33)⟩
  log := []

end RwSep.Allocator
