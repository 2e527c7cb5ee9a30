import RwSep.Allocator.Pools
import Mathlib.Logic.Function.Basic

namespace RwSep.Allocator

open RwSep.Data

/-! Which regions the table entries of a family of objects stand for.

All objects draw their regions from one system.  As long as the system grants
every request, each live table entry, of any object and either pool, stands
for a region of the log, and different entries stand for disjoint regions.
-/

variable {κ : Type}

structure Entry (κ : Type) where
  owner : κ
  onNvm : Bool
  index : Nat
deriving DecidableEq

def Entry.Live (objects : κ → Fastalloc) (entry : Entry κ) : Prop :=
  entry.index < ((objects entry.owner).pool entry.onNvm).cnt.toNat

/-- The region the entry stands for; `first` gives the lengths `init` used. -/
def Entry.region (first : κ → Word) (objects : κ → Fastalloc) (entry : Entry κ) : Range :=
  ((objects entry.owner).pool entry.onNvm).region (first entry.owner) entry.index

structure Owned (first : κ → Word) (objects : κ → Fastalloc) (log : List Event) : Prop where
  recorded : ∀ entry : Entry κ, entry.Live objects →
    ∃ region ∈ regions log, region.range = entry.region first objects
  apart : ∀ entry other : Entry κ, entry.Live objects → other.Live objects → entry ≠ other →
    (entry.region first objects).Disjoint (other.region first objects)

namespace Owned

variable {first : κ → Word} {objects objects' : κ → Fastalloc} {log log' : List Event}

theorem empty (unused : ∀ owner onNvm, ((objects owner).pool onNvm).cnt = 0) :
    Owned first objects log where
  recorded entry live := by simp [Entry.Live, unused] at live
  apart entry other live := by simp [Entry.Live, unused] at live

theorem keep (owned : Owned first objects log)
    (live : ∀ entry : Entry κ, entry.Live objects' → entry.Live objects)
    (same : ∀ entry : Entry κ, entry.Live objects →
      entry.region first objects' = entry.region first objects) :
    Owned first objects' log where
  recorded entry inUse := by
    rw [same entry (live entry inUse)]
    exact owned.recorded entry (live entry inUse)
  apart entry other inUse otherInUse different := by
    rw [same entry (live entry inUse), same other (live other otherInUse)]
    exact owned.apart entry other (live entry inUse) (live other otherInUse) different

/-- One entry was opened, on a region that the earlier log does not touch. -/
theorem grow (owned : Owned first objects log) (opened : Entry κ) {region : Region}
    (inLog : region ∈ regions log') (kept : ∀ earlier ∈ regions log, earlier ∈ regions log')
    (fresh : ∀ earlier ∈ regions log, earlier.range.Disjoint region.range)
    (stands : region.range = opened.region first objects')
    (live : ∀ entry : Entry κ, entry.Live objects' → entry.Live objects ∨ entry = opened)
    (same : ∀ entry : Entry κ, entry.Live objects →
      entry.region first objects' = entry.region first objects) :
    Owned first objects' log' where
  recorded entry inUse := by
    rcases live entry inUse with old | rfl
    · obtain ⟨earlier, member, range⟩ := owned.recorded entry old
      exact ⟨earlier, kept earlier member, by rw [range, same entry old]⟩
    · exact ⟨region, inLog, stands⟩
  apart entry other inUse otherInUse different := by
    have fromNew : ∀ old : Entry κ, old.Live objects →
        (old.region first objects').Disjoint (opened.region first objects') := by
      intro old wasLive
      obtain ⟨earlier, member, range⟩ := owned.recorded old wasLive
      rw [same old wasLive, ← range, ← stands]
      exact fresh earlier member
    rcases live entry inUse with old | rfl
    · rcases live other otherInUse with otherOld | rfl
      · rw [same entry old, same other otherOld]
        exact owned.apart entry other old otherOld different
      · exact fromNew entry old
    · rcases live other otherInUse with otherOld | rfl
      · exact (fromNew other otherOld).symm
      · exact absurd rfl different

variable [DecidableEq κ]

/-- The object `owner` becomes `after`, which differs from it by one fill of
the next entry of pool `onNvm`, taking `size` bytes from it at once. -/
theorem filled (owned : Owned first objects log) (owner : κ) (onNvm : Bool) (after : Fastalloc)
    (fill : Fill) (length size : Word) {os : Os}
    (logged : log = os.log) (granted : Granted (os.fill fill).2.log)
    (bound : ((objects owner).pool onNvm).cnt.toNat < 100)
    (served : after.pool onNvm =
      (((objects owner).pool onNvm).opened (os.fill fill).1 length bound).take size)
    (other : after.pool (!onNvm) = (objects owner).pool (!onNvm))
    (lengths : fill.kept.length.toNat = regionLength (first owner) ((objects owner).pool onNvm).cnt.toNat) :
    Owned first (Function.update objects owner after) (os.fill fill).2.log := by
  subst logged
  obtain ⟨inLog, fresh⟩ := granted.fill_region
  obtain ⟨events, grown⟩ := os.fill_log fill
  refine owned.grow ⟨owner, onNvm, ((objects owner).pool onNvm).cnt.toNat⟩ inLog ?_ fresh
    ?_ ?_ ?_
  · intro earlier member
    rw [grown]
    simp [member]
  · rw [Entry.region]
    simp [served, Pool.region, lengths]
  · intro found inUse
    obtain ⟨which, pool, index⟩ := found
    by_cases sameOwner : which = owner
    · subst sameOwner
      by_cases samePool : pool = onNvm
      · subst samePool
        simp only [Entry.Live, Function.update_self, served, Pool.take_cnt, Pool.opened_cnt] at inUse ⊢
        simp only [Entry.mk.injEq, true_and]
        omega
      · obtain rfl : pool = !onNvm := Bool.eq_not_of_ne samePool
        left
        simpa [Entry.Live, other] using inUse
    · left
      simpa [Entry.Live, sameOwner] using inUse
  · intro found wasLive
    obtain ⟨which, pool, index⟩ := found
    by_cases sameOwner : which = owner
    · subst sameOwner
      by_cases samePool : pool = onNvm
      · subst samePool
        simp only [Entry.Live] at wasLive
        simp [Entry.region, served, Pool.region, Pool.opened_entry_old wasLive]
      · obtain rfl : pool = !onNvm := Bool.eq_not_of_ne samePool
        simp [Entry.region, other]
    · simp [Entry.region, sameOwner]

theorem served (owned : Owned first objects log) (owner : κ) {growth : Fastalloc → Fill}
    {os os' : Os} {size pointer : Word} {onNvm : Bool} {after : Fastalloc}
    (logged : log = os.log)
    (lengths : ∀ a, (growth a).kept.length = ALLOC_SIZE)
    (started : ((objects owner).pool onNvm).cnt.toNat ≠ 0)
    (outcome : Served growth (objects owner) os size onNvm pointer after os')
    (granted : Granted os'.log) :
    Owned first (Function.update objects owner after) os'.log := by
  cases outcome with
  | fit room served other channel =>
      subst logged
      have pools : ∀ pool, (after.pool pool).cnt = ((objects owner).pool pool).cnt ∧
          ∀ index, (after.pool pool).entry index = ((objects owner).pool pool).entry index := by
        intro pool
        by_cases samePool : pool = onNvm
        · subst samePool
          simp [served]
        · obtain rfl : pool = !onNvm := Bool.eq_not_of_ne samePool
          simp [other]
      refine owned.keep ?_ ?_
      · intro found inUse
        obtain ⟨which, pool, index⟩ := found
        by_cases sameOwner : which = owner
        · subst sameOwner
          simpa [Entry.Live, (pools pool).1] using inUse
        · simpa [Entry.Live, sameOwner] using inUse
      · intro found wasLive
        obtain ⟨which, pool, index⟩ := found
        by_cases sameOwner : which = owner
        · subst sameOwner
          simp [Entry.region, Pool.region, (pools pool).2]
        · simp [Entry.region, sameOwner]
  | grow full bound served other channel =>
      refine owned.filled owner onNvm _ _ _ _ logged granted bound served other ?_
      rw [regionLength, if_neg started]
      cases onNvm with
      | true => rw [Fastalloc.fill, lengths]
      | false => rfl

end Owned

end RwSep.Allocator
