/- GID: FiveAM.Heap.Refusals
   source: kernel/src/heap.rs
   digest: What the heap refuses: the single placement `fits` tries against every placement. -/

import FiveAM.Heap.HoleList

set_option autoImplicit false
set_option relaxedAutoImplicit false

namespace FiveAM.Heap.Refusals

open FiveAM.Lib.Extents
open FiveAM.Lib.Extents.Extent
open FiveAM.Heap.HoleList

/-- A block of `size` bytes at `place` would be aligned and inside the hole, and
what it leaves before and after it is nothing or can hold a `Hole`. -/
structure Places (hole : Hole) (size align place : Nat) : Prop where
  aligned : align ∣ place
  lower : hole.start ≤ place
  upper : place + size ≤ hole.stop
  front : place = hole.start ∨ holeSize ≤ place - hole.start
  back : place + size = hole.stop ∨ holeSize ≤ hole.stop - (place + size)

/-- The first aligned address lies eight bytes into the hole, too close to its
start for a list node, while the next aligned address leaves room for one on
either side. -/
def Skipped (hole : Hole) (size align : Nat) : Prop :=
  alignUp hole.start align = hole.start + 8 ∧
    (hole.start + 8 + align + size = hole.stop ∨
      hole.start + 8 + align + size + holeSize ≤ hole.stop)

/-- The null pointer comes only when no hole has a place for the block. -/
def RefusesOnlyFull (heap : LinkedListAllocator) (layout : Layout) : Prop :=
  ∀ size align, adjust layout = some (size, align) →
    (∃ heap', alloc heap layout = some (none, heap')) →
    ¬ ∃ hole ∈ heap.holes, ∃ place, Places hole size align place

/-- The first aligned address of some hole takes the block, or no hole is one
whose second aligned address would take it. -/
def FirstPlaces (heap : LinkedListAllocator) (layout : Layout) : Prop :=
  ∀ size align, adjust layout = some (size, align) →
    (∃ hole ∈ heap.holes, Places hole size align (alignUp hole.start align)) ∨
    ∀ hole ∈ heap.holes, ¬ Skipped hole size align

private theorem takeRegionFrom_none {size align : Nat} {before holes : List Hole} :
    takeRegionFrom size align before holes = none ↔ ∀ h ∈ holes, fits h size align = none := by
  induction holes generalizing before with
  | nil => simp [takeRegionFrom]
  | cons current next ih =>
      cases fit : fits current size align with
      | none => simp [takeRegionFrom, fit, ih]
      | some start => simp [takeRegionFrom, fit]

theorem alloc_null_iff {heap : LinkedListAllocator} {layout : Layout} {size align : Nat}
    (adjusted : adjust layout = some (size, align)) :
    (∃ heap', alloc heap layout = some (none, heap')) ↔
      ∀ h ∈ heap.holes, fits h size align = none := by
  rw [← takeRegionFrom_none]
  change _ ↔ takeRegion heap.holes size align = none
  cases taken : takeRegion heap.holes size align with
  | none => simp [alloc, adjusted, taken]
  | some found => simp [alloc, adjusted, taken]

theorem fits_none_iff {hole : Hole} {size align : Nat} (inside : hole.stop ≤ usizeMax)
    (above : hole.start ≤ alignUp hole.start align) (divides : align ∣ alignUp hole.start align) :
    fits hole size align = none ↔ ¬ Places hole size align (alignUp hole.start align) := by
  constructor
  · intro refused place
    obtain ⟨_, lower, upper, front, back⟩ := place
    simp only [fits] at refused
    split_ifs at refused <;> omega
  · intro elsewhere
    by_contra taken
    obtain ⟨start, fit⟩ := Option.ne_none_iff_exists'.mp taken
    simp only [fits] at fit
    split_ifs at fit with overflow past front back
    exact elsewhere ⟨divides, above, by omega, by omega, by omega⟩

private theorem aligned_gap {align a b : Nat} (first : align ∣ a) (second : align ∣ b)
    (order : a ≤ b) : a = b ∨ a + align ≤ b := by
  rcases Nat.eq_or_lt_of_le order with same | less
  · exact .inl same
  · right
    have whole := Nat.le_of_dvd (Nat.sub_pos_of_lt less) (Nat.dvd_sub second first)
    omega

private theorem first_or_further {address align place : Nat} (power : ∃ k < 64, align = 2 ^ k)
    (small : address + align ≤ 2 ^ 64) (divides : align ∣ place) (lower : address ≤ place) :
    place = alignUp address align ∨ alignUp address align + align ≤ place := by
  obtain ⟨first, _, near⟩ := alignUp_bounds power small
  rcases Nat.le_total (alignUp address align) place with low | high
  · exact (aligned_gap first divides low).imp_left Eq.symm
  · rcases aligned_gap divides first high with same | short
    · exact .inl same
    · omega

/-- Where the first aligned address is refused although the hole has a place, the
second aligned address is one and the first lies eight bytes in. -/
theorem skipped_of_places {hole : Hole} {size align place : Nat} (sized : Sized hole)
    (power : ∃ k < 64, align = 2 ^ k) (wide : holeAlign ∣ align)
    (small : hole.start + align ≤ 2 ^ 64) (fit : Places hole size align place)
    (refused : ¬ Places hole size align (alignUp hole.start align)) :
    Skipped hole size align := by
  obtain ⟨divides, above, near⟩ := alignUp_bounds power small
  have far : alignUp hole.start align + align ≤ place := by
    rcases first_or_further power small fit.aligned fit.lower with rfl | far
    · exact absurd fit refused
    · exact far
  obtain ⟨u, first_eq⟩ := Nat.dvd_trans wide divides
  obtain ⟨v, start_eq⟩ := sized.1
  obtain ⟨w, align_eq⟩ := wide
  have upper := fit.upper
  have front := fit.front
  have back := fit.back
  simp only [holeAlign, holeSize] at first_eq start_eq align_eq front back
  have close : ¬ (alignUp hole.start align = hole.start ∨
      16 ≤ alignUp hole.start align - hole.start) := by
    intro apart
    refine refused ⟨divides, above, by omega, apart, ?_⟩
    simp only [holeSize]
    omega
  refine ⟨by omega, ?_⟩
  simp only [holeSize]
  have steps := aligned_gap (Nat.dvd_add divides (Nat.dvd_refl align)) fit.aligned far
  omega

theorem places_of_skipped {hole : Hole} {size align : Nat} (power : ∃ k < 64, align = 2 ^ k)
    (wide : holeAlign ∣ align) (small : hole.start + align ≤ 2 ^ 64)
    (skipped : Skipped hole size align) :
    Places hole size align (alignUp hole.start align + align) := by
  obtain ⟨divides, above, near⟩ := alignUp_bounds power small
  obtain ⟨first, room⟩ := skipped
  obtain ⟨w, align_eq⟩ := wide
  simp only [holeAlign, holeSize] at align_eq room
  refine ⟨Nat.dvd_add divides (Nat.dvd_refl align), by omega, by omega, ?_, ?_⟩
  · simp only [holeSize]
    omega
  · simp only [holeSize]
    omega

private theorem room_to_align {address align : Nat} (inside : address < heapStart + heapSize)
    (power : ∃ k < 64, align = 2 ^ k) : address + align ≤ 2 ^ 64 := by
  obtain ⟨k, bits, rfl⟩ := power
  have widest : 2 ^ k ≤ 2 ^ 63 := Nat.pow_le_pow_right (by decide) (by omega)
  have bound : heapStart + heapSize ≤ 2 ^ 63 := by decide
  omega

private theorem stop_in_heap {heap : LinkedListAllocator} {live : List (Nat × Layout)}
    (acc : Accounted heap live) {h : Hole} (member : h ∈ heap.holes) : h.stop ≤ usizeMax := by
  have sized := (acc.tidy.sized h member).2.2
  have last : h.Holds (h.stop - 1) := by
    simp only [Holds, stop, holeSize] at sized ⊢
    omega
  have covered : 0 < hits (heap.holes ++ live.map blockOf) (h.stop - 1) :=
    hits_pos.mpr ⟨h, List.mem_append_left _ member, last⟩
  rw [acc.count] at covered
  by_contra outside
  have beyond : ¬ (heapStart ≤ h.stop - 1 ∧ h.stop - 1 < heapStart + heapSize) := by
    simp only [usizeMax, heapStart, heapSize] at outside ⊢
    omega
  rw [if_neg beyond] at covered
  exact absurd covered (Nat.lt_irrefl 0)

/-- In every state a run reaches, the heap refuses only what has no place exactly when
some hole takes the block at its first aligned address or no hole is skipped. -/
theorem refuses_only_full_iff {heap : LinkedListAllocator} {live : List (Nat × Layout)}
    (run : Reachable heap live) (layout : Layout) :
    RefusesOnlyFull heap layout ↔ FirstPlaces heap layout := by
  have acc := reachable_accounted run
  refine forall₂_congr fun size align => forall_congr' fun adjusted => ?_
  obtain ⟨power, wide, _, _, _⟩ := adjust_spec adjusted
  have small : ∀ h ∈ heap.holes, h.start + align ≤ 2 ^ 64 := fun h member =>
    room_to_align (hole_in_heap acc member) power
  have tried : ∀ h ∈ heap.holes, (fits h size align = none ↔
      ¬ Places h size align (alignUp h.start align)) := by
    intro h member
    obtain ⟨divides, above, _⟩ := alignUp_bounds power (small h member)
    exact fits_none_iff (stop_in_heap acc member) above divides
  rw [alloc_null_iff adjusted]
  constructor
  · intro full
    by_contra missed
    obtain ⟨none, skipped⟩ := not_or.mp missed
    push Not at skipped
    obtain ⟨hole, member, skipped⟩ := skipped
    refine full (fun h inside => (tried h inside).mpr fun place => none ⟨h, inside, place⟩) ?_
    exact ⟨hole, member, _, places_of_skipped power wide (small hole member) skipped⟩
  · rintro (⟨hole, member, place⟩ | unskipped) refused ⟨h, inside, p, fit⟩
    · exact (tried hole member).mp (refused hole member) place
    · exact unskipped h inside (skipped_of_places (acc.tidy.sized h inside) power wide
        (small h inside) fit ((tried h inside).mp (refused h inside)))

/-- Three words, aligned as a `Hole` is. -/
def threeWords : Layout := ⟨24, 8, word_aligned, by decide⟩

def fourWords : Layout := ⟨32, 16, ⟨4, by decide, rfl⟩, by decide⟩

/-- What the first allocation of a run leaves when it takes three words. -/
def afterThreeWords : LinkedListAllocator := ⟨[⟨heapStart + 24, heapSize - 24⟩], 24, 1⟩

private theorem alloc_three_words :
    alloc init threeWords = some (some heapStart, afterThreeWords) := by
  decide +kernel

private theorem three_words_run : Reachable afterThreeWords [(heapStart, threeWords)] :=
  .alloc .init alloc_three_words

/-- The equivalence for four words aligned to sixteen, after one allocation of three
words. -/
theorem refuses_only_full_four_words :
    RefusesOnlyFull afterThreeWords fourWords ↔ FirstPlaces afterThreeWords fourWords :=
  refuses_only_full_iff three_words_run fourWords

/-- With all but 24 bytes of the heap free, and the one hole starting eight bytes off
an aligned address, 32 bytes are refused. -/
theorem refuses_what_fits :
    Reachable afterThreeWords [(heapStart, threeWords)] ∧
      alloc afterThreeWords fourWords = some (none, afterThreeWords) ∧
      adjust fourWords = some (32, 16) ∧
      Places ⟨heapStart + 24, heapSize - 24⟩ 32 16 (heapStart + 48) ∧
      ¬ RefusesOnlyFull afterThreeWords fourWords := by
  have null : alloc afterThreeWords fourWords = some (none, afterThreeWords) := by decide +kernel
  have adjusted : adjust fourWords = some (32, 16) := by decide +kernel
  have place : Places ⟨heapStart + 24, heapSize - 24⟩ 32 16 (heapStart + 48) :=
    ⟨by decide, by decide, by decide, by decide, by decide⟩
  refine ⟨three_words_run, null, adjusted, place, fun full => ?_⟩
  exact full 32 16 adjusted ⟨_, null⟩ ⟨_, List.mem_singleton_self _, _, place⟩

end FiveAM.Heap.Refusals
