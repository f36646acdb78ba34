/- GID: FiveAM.Heap.HoleList
   source: kernel/src/heap.rs
   digest: The kernel heap's sorted hole list, its splits and merges, over whole runs. -/

import FiveAM.Lib.Extents
import Mathlib.Data.List.TakeWhile
import Mathlib.Data.Nat.Bitwise

set_option autoImplicit false
set_option relaxedAutoImplicit false

namespace FiveAM.Heap.HoleList

open FiveAM.Lib.Extents
open FiveAM.Lib.Extents.Extent

/-- A free region. The source threads the list through the free memory; here a
hole is its address with its size, and `next` is the rest of the list. -/
abbrev Hole := Extent

def heapStart : Nat := 0x444444440000
def heapSize : Nat := 2 * 1024 * 1024
def usizeMax : Nat := 2 ^ 64 - 1
def isizeMax : Nat := 2 ^ 63 - 1

/-- `size_of::<Hole>()`: a size and a next pointer. -/
def holeSize : Nat := 16

/-- `align_of::<Hole>()`. -/
def holeAlign : Nat := 8

structure LinkedListAllocator where
  holes : List Hole
  allocated : Nat
  liveAllocations : Nat
  deriving DecidableEq, Repr

/-- `core::alloc::Layout`: the alignment is a power of two and the size, rounded
up to it, fits an `isize`. -/
structure Layout where
  size : Nat
  align : Nat
  align_pow : ∃ k < 64, align = 2 ^ k
  size_le : size + align ≤ isizeMax + 1

/-- `(address + align - 1) & !(align - 1)` on 64-bit words. -/
def alignUp (address align : Nat) : Nat :=
  (address + align - 1) % 2 ^ 64 &&& (2 ^ 64 - align)

/-- `Layout::align_to` followed by `pad_to_align`; `none` is the panic of
`expect("alignment overflow")`. -/
def adjust (layout : Layout) : Option (Nat × Nat) :=
  let align := max layout.align holeAlign
  if layout.size + align ≤ isizeMax + 1 then
    some (max (alignUp layout.size align) holeSize, align)
  else none

def mergeForward (hole : Hole) : List Hole → Hole × List Hole
  | [] => (hole, [])
  | current :: next =>
      if hole.stop = current.start then (⟨hole.start, hole.size + current.size⟩, next)
      else (hole, current :: next)

/-- The previous hole runs directly into this one. -/
def mergeBackward (before : List Hole) (hole : Hole) (next : List Hole) : List Hole :=
  match before.getLast? with
  | none => hole :: next
  | some previous =>
      if previous.stop = hole.start then
        before.dropLast ++ ⟨previous.start, previous.size + hole.size⟩ :: next
      else before ++ hole :: next

/-- Return a region to the free list, merging it with its neighbours. -/
def addRegion (holes : List Hole) (address size : Nat) : List Hole :=
  let before := holes.takeWhile (fun h => decide (h.start < address))
  let after := holes.dropWhile (fun h => decide (h.start < address))
  let (hole, next) := mergeForward ⟨address, size⟩ after
  mergeBackward before hole next

/-- Can this allocation sit in this hole, once aligned? -/
def fits (hole : Hole) (size align : Nat) : Option Nat :=
  let start := alignUp hole.start align
  if usizeMax < start + size then none
  else if hole.stop < start + size then none
  else
    let front := start - hole.start
    if 0 < front ∧ front < holeSize then none
    else
      let back := hole.stop - (start + size)
      if 0 < back ∧ back < holeSize then none else some start

/-- Unlink `current`, whose predecessors are `before`, and add back what the
allocation leaves on either side. -/
def splitHole (before : List Hole) (current : Hole) (next : List Hole)
    (start size : Nat) : List Hole :=
  let unlinked := before ++ next
  let front :=
    if current.start < start then addRegion unlinked current.start (start - current.start)
    else unlinked
  if start + size < current.stop then
    addRegion front (start + size) (current.stop - (start + size))
  else front

/-- Find a hole big enough, split it, and unlink what we took. -/
def takeRegionFrom (size align : Nat) (before : List Hole) :
    List Hole → Option (Nat × List Hole)
  | [] => none
  | current :: next =>
      match fits current size align with
      | some start => some (start, splitHole before current next start size)
      | none => takeRegionFrom size align (before ++ [current]) next

def takeRegion (holes : List Hole) (size align : Nat) : Option (Nat × List Hole) :=
  takeRegionFrom size align [] holes

/-- `GlobalAlloc::alloc`: the outer `none` is a panic in `adjust`, the inner one
the null pointer. -/
def alloc (heap : LinkedListAllocator) (layout : Layout) :
    Option (Option Nat × LinkedListAllocator) :=
  match adjust layout with
  | none => none
  | some (size, align) =>
      match takeRegion heap.holes size align with
      | some (start, holes) =>
          some (some start, ⟨holes, heap.allocated + size, heap.liveAllocations + 1⟩)
      | none => some (none, heap)

def dealloc (heap : LinkedListAllocator) (ptr : Nat) (layout : Layout) :
    Option LinkedListAllocator :=
  match adjust layout with
  | none => none
  | some (size, _) =>
      some ⟨addRegion heap.holes ptr size, heap.allocated - size, heap.liveAllocations - 1⟩

/-- The allocator as `heap::init` leaves it, its pages mapped. -/
def init : LinkedListAllocator := ⟨addRegion [] heapStart heapSize, 0, 0⟩

def blockOf (p : Nat × Layout) : Extent := ⟨p.1, ((adjust p.2).map Prod.fst).getD 0⟩

/-- The heap states a run of `alloc` and `dealloc` calls passes through, with the
pointers still live. A pointer is freed with the layout it was allocated with. -/
inductive Reachable : LinkedListAllocator → List (Nat × Layout) → Prop
  | init : Reachable init []
  | null {heap heap' : LinkedListAllocator} {live : List (Nat × Layout)} {layout : Layout}
      (prior : Reachable heap live) (call : alloc heap layout = some (none, heap')) :
      Reachable heap' live
  | alloc {heap heap' : LinkedListAllocator} {live : List (Nat × Layout)} {layout : Layout}
      {ptr : Nat} (prior : Reachable heap live)
      (call : alloc heap layout = some (some ptr, heap')) :
      Reachable heap' ((ptr, layout) :: live)
  | dealloc {heap heap' : LinkedListAllocator} {older newer : List (Nat × Layout)}
      {layout : Layout} {ptr : Nat} (prior : Reachable heap (newer ++ (ptr, layout) :: older))
      (call : dealloc heap ptr layout = some heap') : Reachable heap' (newer ++ older)

private theorem and_high_mask {x k : Nat} (small : x < 2 ^ 64) (bits : k < 64) :
    x &&& (2 ^ 64 - 2 ^ k) = x / 2 ^ k * 2 ^ k := by
  have mask : 2 ^ 64 - 2 ^ k = 2 ^ k * (2 ^ (64 - k) - 1) := by
    rw [Nat.mul_sub, ← Nat.pow_add, Nat.mul_one, Nat.add_sub_cancel' (Nat.le_of_lt bits)]
  rw [mask, Nat.mul_comm (x / 2 ^ k)]
  apply Nat.eq_of_testBit_eq
  intro i
  rw [Nat.testBit_and, Nat.testBit_two_pow_mul, Nat.testBit_two_pow_mul,
    Nat.testBit_two_pow_sub_one, Nat.testBit_div_two_pow]
  by_cases low : k ≤ i
  · rw [Nat.sub_add_cancel low]
    by_cases high : i < 64
    · have inside : i - k < 64 - k := by omega
      simp [low, inside]
    · have clear : x.testBit i = false :=
        Nat.testBit_lt_two_pow (Nat.lt_of_lt_of_le small (Nat.pow_le_pow_right (by omega)
          (Nat.not_lt.mp high)))
      simp [clear]
  · simp [low]

private theorem alignUp_pow {address k : Nat} (bits : k < 64)
    (small : address + 2 ^ k - 1 < 2 ^ 64) :
    alignUp address (2 ^ k) = (address + 2 ^ k - 1) / 2 ^ k * 2 ^ k := by
  rw [alignUp, Nat.mod_eq_of_lt small, and_high_mask small bits]

theorem alignUp_bounds {address align : Nat} (power : ∃ k < 64, align = 2 ^ k)
    (small : address + align ≤ 2 ^ 64) :
    align ∣ alignUp address align ∧ address ≤ alignUp address align ∧
      alignUp address align < address + align := by
  obtain ⟨k, bits, rfl⟩ := power
  have positive : 0 < 2 ^ k := Nat.two_pow_pos k
  rw [alignUp_pow bits (by omega)]
  have split := Nat.div_add_mod (address + 2 ^ k - 1) (2 ^ k)
  have bound := Nat.mod_lt (address + 2 ^ k - 1) positive
  rw [Nat.mul_comm] at split
  exact ⟨Nat.dvd_mul_left _ _, by omega, by omega⟩

/-- What every hole and every block is: aligned for a `Hole` and able to hold one. -/
def Sized (e : Extent) : Prop := holeAlign ∣ e.start ∧ holeAlign ∣ e.size ∧ holeSize ≤ e.size

/-- Sorted by address, neighbours apart, every member big enough to be a hole. -/
structure Tidy (holes : List Hole) : Prop where
  separated : Separated holes
  sized : ∀ h ∈ holes, Sized h

private theorem sized_pos {e : Extent} (sized : Sized e) : 0 < e.size :=
  Nat.lt_of_lt_of_le (by decide) sized.2.2

private theorem sized_join {a n m : Nat} (first : Sized ⟨a, n⟩) (second : Sized ⟨a + n, m⟩) :
    Sized ⟨a, n + m⟩ :=
  ⟨first.1, Nat.dvd_add first.2.1 second.2.1, Nat.le_trans first.2.2 (Nat.le_add_right _ _)⟩

private theorem mergeForward_spec {hole : Hole} {after : List Hole} (tidy : Tidy after)
    (sized : Sized hole) (above : ∀ a ∈ after, hole.stop ≤ a.start) :
    Tidy ((mergeForward hole after).1 :: (mergeForward hole after).2) ∧
      (mergeForward hole after).1.start = hole.start ∧
      (∀ a ∈ (mergeForward hole after).2, a ∈ after) ∧
      ∀ x, hits ((mergeForward hole after).1 :: (mergeForward hole after).2) x =
        hits (hole :: after) x := by
  cases after with
  | nil =>
      refine ⟨⟨List.pairwise_singleton _ _, fun h member => ?_⟩, rfl, by simp [mergeForward],
        fun x => rfl⟩
      obtain rfl := List.mem_singleton.mp member
      exact sized
  | cons current next =>
      have parts := List.pairwise_cons.mp tidy.separated
      by_cases touch : hole.stop = current.start
      · obtain ⟨a, n⟩ := hole
        obtain ⟨b, m⟩ := current
        simp only [stop] at touch
        subst touch
        simp only [mergeForward, stop, if_pos]
        refine ⟨⟨List.pairwise_cons.mpr ⟨?_, parts.2⟩, ?_⟩, trivial,
          fun e member => List.mem_cons_of_mem _ member, fun x => ?_⟩
        · intro e member
          have gap := parts.1 e member
          simp only [stop] at gap ⊢
          omega
        · intro e member
          rcases List.mem_cons.mp member with rfl | member
          · exact sized_join sized (tidy.sized _ List.mem_cons_self)
          · exact tidy.sized e (List.mem_cons_of_mem _ member)
        · simp only [hits_cons, holds_join]
          omega
      · have gap : hole.stop < current.start :=
          Nat.lt_of_le_of_ne (above current List.mem_cons_self) touch
        simp only [mergeForward, if_neg touch]
        refine ⟨⟨List.pairwise_cons.mpr ⟨?_, tidy.separated⟩, ?_⟩, trivial, fun e h => h,
          fun x => trivial⟩
        · intro e member
          rcases List.mem_cons.mp member with rfl | member
          · exact gap
          · have far := parts.1 e member
            simp only [stop] at far gap ⊢
            omega
        · intro e member
          rcases List.mem_cons.mp member with rfl | member
          · exact sized
          · exact tidy.sized e member

private theorem mergeBackward_spec {before next : List Hole} {hole : Hole} (tidy : Tidy before)
    (rest : Tidy (hole :: next)) (below : ∀ b ∈ before, b.stop ≤ hole.start)
    (apart : ∀ b ∈ before, ∀ a ∈ next, b.stop < a.start) :
    Tidy (mergeBackward before hole next) ∧
      ∀ x, hits (mergeBackward before hole next) x = hits before x + hits (hole :: next) x := by
  rcases List.eq_nil_or_concat' before with rfl | ⟨init, previous, rfl⟩
  · exact ⟨rest, fun x => by simp [mergeBackward]⟩
  · have member : previous ∈ init ++ [previous] := by simp
    have parts := List.pairwise_append.mp tidy.separated
    have tail := List.pairwise_cons.mp rest.separated
    simp only [mergeBackward, List.getLast?_concat, List.dropLast_concat]
    by_cases touch : previous.stop = hole.start
    · obtain ⟨a, n⟩ := previous
      obtain ⟨b, m⟩ := hole
      simp only [stop] at touch
      subst touch
      simp only [stop, if_pos]
      refine ⟨⟨List.pairwise_append.mpr ⟨parts.1, List.pairwise_cons.mpr ⟨?_, tail.2⟩, ?_⟩, ?_⟩,
        fun x => ?_⟩
      · intro e inNext
        have gap := tail.1 e inNext
        simp only [stop] at gap ⊢
        omega
      · intro e inInit f inRest
        rcases List.mem_cons.mp inRest with rfl | inNext
        · exact parts.2.2 e inInit ⟨a, n⟩ (List.mem_singleton_self _)
        · exact apart e (List.mem_append_left _ inInit) f inNext
      · intro e inside
        rcases List.mem_append.mp inside with inInit | inRest
        · exact tidy.sized e (List.mem_append_left _ inInit)
        · rcases List.mem_cons.mp inRest with rfl | inNext
          · exact sized_join (tidy.sized _ member) (rest.sized _ List.mem_cons_self)
          · exact rest.sized e (List.mem_cons_of_mem _ inNext)
      · simp only [hits_append, hits_cons, hits_nil, holds_join]
        omega
    · simp only [if_neg touch]
      refine ⟨⟨List.pairwise_append.mpr ⟨tidy.separated, rest.separated, ?_⟩, ?_⟩,
        fun x => by simp only [hits_append]⟩
      · intro e inBefore f inRest
        rcases List.mem_cons.mp inRest with rfl | inNext
        · rcases List.mem_append.mp inBefore with inInit | isLast
          · have gap := parts.2.2 e inInit previous (List.mem_singleton_self _)
            have bound := below previous member
            simp only [stop] at gap bound ⊢
            omega
          · obtain rfl := List.mem_singleton.mp isLast
            exact Nat.lt_of_le_of_ne (below _ member) touch
        · exact apart e inBefore f inNext
      · intro e inside
        rcases List.mem_append.mp inside with inBefore | inRest
        · exact tidy.sized e inBefore
        · exact rest.sized e inRest

private theorem below_region {holes : List Hole} {address size : Nat} (pos : 0 < size)
    (free : ∀ x, address ≤ x → x < address + size → hits holes x = 0) {b : Hole}
    (member : b ∈ holes) (low : b.start < address) : b.stop ≤ address := by
  by_contra ceased
  have clear := hits_eq_zero.mp (free address (Nat.le_refl _) (by omega)) b member
  exact clear ⟨Nat.le_of_lt low, Nat.not_le.mp ceased⟩

private theorem above_region {holes : List Hole} {address size : Nat}
    (free : ∀ x, address ≤ x → x < address + size → hits holes x = 0) {a : Hole}
    (member : a ∈ holes) (sized : Sized a) (high : address ≤ a.start) :
    address + size ≤ a.start := by
  by_contra under
  have clear := hits_eq_zero.mp (free a.start high (Nat.not_le.mp under)) a member
  exact clear ⟨Nat.le_refl _, Nat.lt_add_of_pos_right (sized_pos sized)⟩

private theorem start_of_mem_dropWhile {holes : List Hole} (sep : Separated holes)
    {address : Nat} {a : Hole}
    (member : a ∈ holes.dropWhile (fun h => decide (h.start < address))) : address ≤ a.start := by
  induction holes with
  | nil => simp at member
  | cons h holes ih =>
      have parts := List.pairwise_cons.mp sep
      by_cases low : h.start < address
      · rw [List.dropWhile_cons_of_pos (by simpa using low)] at member
        exact ih parts.2 member
      · rw [List.dropWhile_cons_of_neg (by simpa using low)] at member
        rcases List.mem_cons.mp member with rfl | member
        · exact Nat.not_lt.mp low
        · have gap := parts.1 a member
          simp only [stop] at gap
          omega

private theorem addRegion_spec {holes : List Hole} {address size : Nat} (tidy : Tidy holes)
    (sized : Sized ⟨address, size⟩)
    (free : ∀ x, address ≤ x → x < address + size → hits holes x = 0) :
    Tidy (addRegion holes address size) ∧
      ∀ x, hits (addRegion holes address size) x =
        hits holes x + if Holds ⟨address, size⟩ x then 1 else 0 := by
  let p : Hole → Bool := fun h => decide (h.start < address)
  have whole : holes.takeWhile p ++ holes.dropWhile p = holes := List.takeWhile_append_dropWhile
  have inBefore : ∀ b ∈ holes.takeWhile p, b ∈ holes := fun b h =>
    whole ▸ List.mem_append_left _ h
  have inAfter : ∀ a ∈ holes.dropWhile p, a ∈ holes := fun a h =>
    whole ▸ List.mem_append_right _ h
  have parts := List.pairwise_append.mp (whole.symm ▸ tidy.separated)
  have tidyBefore : Tidy (holes.takeWhile p) := ⟨parts.1, fun b h => tidy.sized b (inBefore b h)⟩
  have tidyAfter : Tidy (holes.dropWhile p) := ⟨parts.2.1, fun a h => tidy.sized a (inAfter a h)⟩
  have below : ∀ b ∈ holes.takeWhile p, b.stop ≤ address := fun b h =>
    below_region (sized_pos sized) free (inBefore b h) (by simpa [p] using List.mem_takeWhile_imp h)
  have above : ∀ a ∈ holes.dropWhile p, address + size ≤ a.start := fun a h =>
    above_region free (inAfter a h) (tidy.sized a (inAfter a h))
      (start_of_mem_dropWhile tidy.separated h)
  obtain ⟨tidyMerged, startMerged, subset, count⟩ := mergeForward_spec tidyAfter sized above
  obtain ⟨tidyAll, countAll⟩ := mergeBackward_spec tidyBefore tidyMerged
    (fun b h => by rw [startMerged]; exact below b h)
    (fun b hb a ha => parts.2.2 b hb a (subset a ha))
  refine ⟨tidyAll, fun x => ?_⟩
  have total : hits holes x = hits (holes.takeWhile p) x + hits (holes.dropWhile p) x := by
    rw [← hits_append, whole]
  refine (countAll x).trans ?_
  rw [count x, hits_cons, total, Nat.add_assoc]

private theorem fits_spec {hole : Hole} {size align start : Nat}
    (power : ∃ k < 64, align = 2 ^ k) (small : hole.start + align ≤ 2 ^ 64)
    (fit : fits hole size align = some start) :
    align ∣ start ∧ hole.start ≤ start ∧ start + size ≤ hole.stop ∧
      (start = hole.start ∨ holeSize ≤ start - hole.start) ∧
      (start + size = hole.stop ∨ holeSize ≤ hole.stop - (start + size)) := by
  obtain ⟨divides, lower, _⟩ := alignUp_bounds power small
  simp only [fits] at fit
  split_ifs at fit with overflow past front back
  obtain rfl := Option.some.inj fit
  exact ⟨divides, lower, by omega, by omega, by omega⟩

private theorem remainder_spec {holes : List Hole} {address size : Nat} (tidy : Tidy holes)
    (sized : size = 0 ∨ Sized ⟨address, size⟩)
    (free : ∀ x, address ≤ x → x < address + size → hits holes x = 0) :
    Tidy (if 0 < size then addRegion holes address size else holes) ∧
      ∀ x, hits (if 0 < size then addRegion holes address size else holes) x =
        hits holes x + if Holds ⟨address, size⟩ x then 1 else 0 := by
  rcases sized with rfl | sized
  · refine ⟨by simpa using tidy, fun x => ?_⟩
    have outside : ¬ Holds ⟨address, 0⟩ x := fun inside => by
      rw [holds_iff] at inside
      omega
    simp [outside]
  · simpa only [if_pos (sized_pos sized)] using addRegion_spec tidy sized free

private theorem splitHole_spec {before next : List Hole} {current : Hole} {start size : Nat}
    (tidy : Tidy (before ++ current :: next)) (block : Sized ⟨start, size⟩)
    (lower : current.start ≤ start) (upper : start + size ≤ current.stop)
    (front : start = current.start ∨ holeSize ≤ start - current.start)
    (back : start + size = current.stop ∨ holeSize ≤ current.stop - (start + size)) :
    Tidy (splitHole before current next start size) ∧
      ∀ x, hits (before ++ current :: next) x =
        hits (splitHole before current next start size) x +
          if Holds ⟨start, size⟩ x then 1 else 0 := by
  have whole := List.pairwise_append.mp tidy.separated
  have tail := List.pairwise_cons.mp whole.2.1
  have tidyRest : Tidy (before ++ next) := by
    refine ⟨List.pairwise_append.mpr ⟨whole.1, tail.2, fun b hb a ha =>
      whole.2.2 b hb a (List.mem_cons_of_mem _ ha)⟩, fun h member => tidy.sized h ?_⟩
    rcases List.mem_append.mp member with member | member
    · exact List.mem_append_left _ member
    · exact List.mem_append_right _ (List.mem_cons_of_mem _ member)
  have sizedCurrent := tidy.sized current (List.mem_append_right _ List.mem_cons_self)
  have clear : ∀ x, current.start ≤ x → x < current.stop → hits (before ++ next) x = 0 := by
    intro x low high
    refine hits_eq_zero.mpr fun e member inside => ?_
    rcases List.mem_append.mp member with member | member
    · have gap := whole.2.2 e member current List.mem_cons_self
      exact absurd inside.2 (by omega)
    · have gap := tail.1 e member
      exact absurd inside.1 (by omega)
  have sizedFront : start - current.start = 0 ∨
      Sized ⟨current.start, start - current.start⟩ := by
    rcases front with same | large
    · exact Or.inl (by omega)
    · exact Or.inr ⟨sizedCurrent.1, Nat.dvd_sub block.1 sizedCurrent.1, large⟩
  have sizedBack : current.stop - (start + size) = 0 ∨
      Sized ⟨start + size, current.stop - (start + size)⟩ := by
    rcases back with same | large
    · exact Or.inl (by omega)
    · have divides : holeAlign ∣ start + size := Nat.dvd_add block.1 block.2.1
      exact Or.inr ⟨divides, Nat.dvd_sub (Nat.dvd_add sizedCurrent.1 sizedCurrent.2.1) divides,
        large⟩
  obtain ⟨tidyFront, countFront⟩ := remainder_spec tidyRest sizedFront
    (fun x low high => clear x low (by omega))
  have clearBack : ∀ x, start + size ≤ x → x < start + size + (current.stop - (start + size)) →
      hits (if 0 < start - current.start then
        addRegion (before ++ next) current.start (start - current.start)
        else before ++ next) x = 0 := by
    intro x low high
    rw [countFront, clear x (by omega) (by omega), if_neg]
    rw [holds_iff]
    omega
  obtain ⟨tidyBack, countBack⟩ := remainder_spec tidyFront sizedBack clearBack
  simp only [Nat.sub_pos_iff_lt] at tidyBack countBack countFront
  refine ⟨tidyBack, fun x => ?_⟩
  simp only [splitHole]
  rw [countBack, countFront]
  have pieces : (if current.Holds x then 1 else 0) =
      (if Holds ⟨current.start, start - current.start⟩ x then 1 else 0) +
        (if Holds ⟨start + size, current.stop - (start + size)⟩ x then 1 else 0) +
        (if Holds ⟨start, size⟩ x then 1 else 0) := by
    obtain ⟨a, n⟩ := current
    simp only [holds_iff, stop] at lower upper ⊢
    split_ifs <;> omega
  simp only [hits_append, hits_cons]
  omega

private theorem takeRegionFrom_spec {size align start : Nat} {before holes rest : List Hole}
    (power : ∃ k < 64, align = 2 ^ k) (wide : holeAlign ∣ align)
    (large : holeAlign ∣ size ∧ holeSize ≤ size)
    (small : ∀ h ∈ holes, h.start + align ≤ 2 ^ 64) (tidy : Tidy (before ++ holes))
    (taken : takeRegionFrom size align before holes = some (start, rest)) :
    align ∣ start ∧ Sized ⟨start, size⟩ ∧ Tidy rest ∧
      ∀ x, hits (before ++ holes) x = hits rest x + if Holds ⟨start, size⟩ x then 1 else 0 := by
  induction holes generalizing before with
  | nil => simp [takeRegionFrom] at taken
  | cons current next ih =>
      cases fit : fits current size align with
      | none =>
          simp only [takeRegionFrom, fit] at taken
          have step := ih (fun h member => small h (List.mem_cons_of_mem _ member))
            (show Tidy (before ++ [current] ++ next) by simpa using tidy) taken
          simpa using step
      | some chosen =>
          simp only [takeRegionFrom, fit, Option.some.injEq, Prod.mk.injEq] at taken
          obtain ⟨rfl, rfl⟩ := taken
          obtain ⟨divides, lower, upper, front, back⟩ :=
            fits_spec power (small current List.mem_cons_self) fit
          have block : Sized ⟨chosen, size⟩ := ⟨Nat.dvd_trans wide divides, large.1, large.2⟩
          exact ⟨divides, block, splitHole_spec tidy block lower upper front back⟩

theorem adjust_spec {layout : Layout} {size align : Nat}
    (adjusted : adjust layout = some (size, align)) :
    (∃ k < 64, align = 2 ^ k) ∧ holeAlign ∣ align ∧ layout.align ∣ align ∧
      holeAlign ∣ size ∧ holeSize ≤ size := by
  obtain ⟨k, bits, power⟩ := layout.align_pow
  have wider : ∃ j < 64, max layout.align holeAlign = 2 ^ j ∧ 3 ≤ j ∧ k ≤ j := by
    rw [power]
    by_cases low : k ≤ 3
    · refine ⟨3, by omega, Nat.max_eq_right ?_, le_rfl, low⟩
      exact Nat.pow_le_pow_right (by decide) low
    · refine ⟨k, bits, Nat.max_eq_left ?_, by omega, le_rfl⟩
      exact show 2 ^ 3 ≤ 2 ^ k from Nat.pow_le_pow_right (by decide) (by omega)
  obtain ⟨j, bitsJ, same, three, above⟩ := wider
  simp only [adjust, same] at adjusted
  split_ifs at adjusted with room
  simp only [Option.some.injEq, Prod.mk.injEq] at adjusted
  obtain ⟨rfl, rfl⟩ := adjusted
  have divides : holeAlign ∣ 2 ^ j := Nat.pow_dvd_pow 2 three
  have fitsWord : layout.size + 2 ^ j ≤ 2 ^ 64 := Nat.le_trans room (by decide)
  have rounded := (alignUp_bounds ⟨j, bitsJ, rfl⟩ fitsWord).1
  refine ⟨⟨j, bitsJ, rfl⟩, divides, power ▸ Nat.pow_dvd_pow 2 above, ?_, Nat.le_max_right _ _⟩
  rcases Nat.le_total (alignUp layout.size (2 ^ j)) holeSize with low | high
  · rw [Nat.max_eq_right low]
    decide
  · rw [Nat.max_eq_left high]
    exact Nat.dvd_trans divides rounded

theorem adjust_le {layout : Layout} {size align : Nat}
    (adjusted : adjust layout = some (size, align)) : layout.size ≤ size := by
  have power := (adjust_spec adjusted).1
  simp only [adjust] at adjusted
  split_ifs at adjusted with room
  obtain ⟨rfl, rfl⟩ := Prod.mk.inj (Option.some.inj adjusted)
  have bounds := alignUp_bounds power (Nat.le_trans room (by decide))
  exact Nat.le_trans bounds.2.1 (Nat.le_max_left _ _)

/-- What a run keeps true of the free list and the live blocks together. -/
structure Accounted (heap : LinkedListAllocator) (live : List (Nat × Layout)) : Prop where
  tidy : Tidy heap.holes
  count : ∀ x, hits (heap.holes ++ live.map blockOf) x =
    if heapStart ≤ x ∧ x < heapStart + heapSize then 1 else 0
  adjusted : ∀ p ∈ live, ∃ size align, adjust p.2 = some (size, align)
  aligned : ∀ p ∈ live, p.2.align ∣ p.1
  sized : ∀ p ∈ live, Sized (blockOf p)
  allocated : heap.allocated = ((live.map blockOf).map Extent.size).sum
  liveAllocations : heap.liveAllocations = live.length

theorem hole_in_heap {heap : LinkedListAllocator} {live : List (Nat × Layout)}
    (acc : Accounted heap live) {h : Hole} (member : h ∈ heap.holes) :
    h.start < heapStart + heapSize := by
  have inside : h.Holds h.start :=
    ⟨Nat.le_refl _, Nat.lt_add_of_pos_right (sized_pos (acc.tidy.sized h member))⟩
  have covered : 0 < hits (heap.holes ++ live.map blockOf) h.start :=
    hits_pos.mpr ⟨h, List.mem_append_left _ member, inside⟩
  rw [acc.count] at covered
  by_contra outside
  rw [if_neg (fun range => outside range.2)] at covered
  exact absurd covered (Nat.lt_irrefl 0)

private theorem accounted_init : Accounted init [] where
  tidy := by
    refine ⟨List.pairwise_singleton _ _, fun h member => ?_⟩
    obtain rfl := List.mem_singleton.mp member
    exact ⟨by decide, by decide, by decide⟩
  count x := by
    simp [init, addRegion, mergeForward, mergeBackward, holds_iff]
  adjusted := by simp
  aligned := by simp
  sized := by simp
  allocated := rfl
  liveAllocations := rfl

private theorem alloc_accounted {heap heap' : LinkedListAllocator} {live : List (Nat × Layout)}
    {layout : Layout} {ptr : Nat} (acc : Accounted heap live)
    (call : alloc heap layout = some (some ptr, heap')) :
    Accounted heap' ((ptr, layout) :: live) := by
  cases sizes : adjust layout with
  | none => simp [alloc, sizes] at call
  | some pair =>
      obtain ⟨size, align⟩ := pair
      simp only [alloc, sizes] at call
      cases taken : takeRegion heap.holes size align with
      | none => simp [taken] at call
      | some result =>
          obtain ⟨start, holes⟩ := result
          simp only [taken, Option.some.injEq, Prod.mk.injEq] at call
          obtain ⟨rfl, rfl⟩ := call
          obtain ⟨power, wide, divides, large⟩ := adjust_spec sizes
          have small : ∀ h ∈ heap.holes, h.start + align ≤ 2 ^ 64 := by
            intro h member
            have bound := hole_in_heap acc member
            obtain ⟨k, bits, rfl⟩ := power
            have pow : 2 ^ k ≤ 2 ^ 63 := Nat.pow_le_pow_right (by decide) (by omega)
            simp only [heapStart, heapSize] at bound
            omega
          obtain ⟨aligned, block, tidy, count⟩ :=
            takeRegionFrom_spec power wide large small (by simpa using acc.tidy) taken
          have shape : blockOf (start, layout) = ⟨start, size⟩ := by simp [blockOf, sizes]
          refine ⟨tidy, fun x => ?_, ?_, ?_, ?_, ?_, ?_⟩
          · have before := acc.count x
            have change := count x
            simp only [List.nil_append, List.map_cons, shape, hits_append, hits_cons]
              at before change ⊢
            omega
          · exact List.forall_mem_cons.mpr ⟨⟨size, align, sizes⟩, acc.adjusted⟩
          · exact List.forall_mem_cons.mpr ⟨Nat.dvd_trans divides aligned, acc.aligned⟩
          · exact List.forall_mem_cons.mpr ⟨shape ▸ block, acc.sized⟩
          · simp only [List.map_cons, shape, List.sum_cons, acc.allocated]
            omega
          · simp [acc.liveAllocations]

private theorem dealloc_accounted {heap heap' : LinkedListAllocator}
    {newer older : List (Nat × Layout)} {layout : Layout} {ptr : Nat}
    (acc : Accounted heap (newer ++ (ptr, layout) :: older))
    (call : dealloc heap ptr layout = some heap') : Accounted heap' (newer ++ older) := by
  have member : (ptr, layout) ∈ newer ++ (ptr, layout) :: older := by simp
  obtain ⟨size, align, sizes⟩ := acc.adjusted _ member
  simp only [dealloc, sizes, Option.some.injEq] at call
  subst call
  have shape : blockOf (ptr, layout) = ⟨ptr, size⟩ := by simp [blockOf, sizes]
  have total : ∀ x, hits (newer.map blockOf) x + hits (older.map blockOf) x +
      (if Holds ⟨ptr, size⟩ x then 1 else 0) + hits heap.holes x =
        if heapStart ≤ x ∧ x < heapStart + heapSize then 1 else 0 := by
    intro x
    rw [← acc.count x]
    simp only [List.map_append, List.map_cons, shape, hits_append, hits_cons]
    omega
  have free : ∀ x, ptr ≤ x → x < ptr + size → hits heap.holes x = 0 := by
    intro x low high
    have once := total x
    rw [if_pos (holds_iff.mpr ⟨low, high⟩)] at once
    split at once <;> omega
  obtain ⟨tidy, count⟩ := addRegion_spec acc.tidy (shape ▸ acc.sized _ member) free
  have kept : ∀ p ∈ newer ++ older, p ∈ newer ++ (ptr, layout) :: older := by
    intro p h
    rcases List.mem_append.mp h with h | h
    · exact List.mem_append_left _ h
    · exact List.mem_append_right _ (List.mem_cons_of_mem _ h)
  refine ⟨tidy, fun x => ?_, fun p h => acc.adjusted p (kept p h),
    fun p h => acc.aligned p (kept p h), fun p h => acc.sized p (kept p h), ?_, ?_⟩
  · have once := total x
    rw [← once]
    simp only [List.map_append, hits_append, count x]
    omega
  · simp only [acc.allocated, List.map_append, List.map_cons, List.sum_append, List.sum_cons,
      shape]
    omega
  · simp only [acc.liveAllocations, List.length_append, List.length_cons]
    omega

theorem reachable_accounted {heap : LinkedListAllocator} {live : List (Nat × Layout)}
    (run : Reachable heap live) : Accounted heap live := by
  induction run with
  | init => exact accounted_init
  | @null heap heap' live layout prior call ih =>
      have same : heap' = heap := by
        simp only [alloc] at call
        split at call
        · exact absurd call (by simp)
        · split at call
          · simp at call
          · simp only [Option.some.injEq, Prod.mk.injEq, true_and] at call
            exact call.symm
      exact same ▸ ih
  | alloc prior call ih => exact alloc_accounted ih call
  | dealloc prior call ih => exact dealloc_accounted ih call

private theorem hits_of_same_blocks {heap heap' : LinkedListAllocator}
    {live live' : List (Nat × Layout)} (acc : Accounted heap live)
    (acc' : Accounted heap' live')
    (same : ∀ b, b ∈ live.map blockOf ↔ b ∈ live'.map blockOf) (x : Nat) :
    hits heap.holes x = hits heap'.holes x := by
  have once := acc.count x
  have once' := acc'.count x
  rw [hits_append] at once once'
  have bound : hits (live.map blockOf) x = hits (live'.map blockOf) x := by
    by_cases covered : ∃ e ∈ live.map blockOf, e.Holds x
    · have covered' : ∃ e ∈ live'.map blockOf, e.Holds x := by
        obtain ⟨e, member, inside⟩ := covered
        exact ⟨e, (same e).mp member, inside⟩
      have pos := hits_pos.mpr covered
      have pos' := hits_pos.mpr covered'
      have one : (if heapStart ≤ x ∧ x < heapStart + heapSize then 1 else 0) ≤ 1 := by
        split <;> omega
      omega
    · have clear : hits (live.map blockOf) x = 0 := by
        have := mt hits_pos.mp covered
        omega
      have clear' : hits (live'.map blockOf) x = 0 := by
        refine hits_eq_zero.mpr fun e member inside => covered ⟨e, (same e).mpr member, inside⟩
      rw [clear, clear']
  omega

/-- Over every run from `heap::init`: the free list is strictly increasing, its
holes aligned, large enough and never touching; holes and live blocks partition
the heap; the counters are exact; the list is a function of the live blocks, and
is the one initial hole again when nothing is live. -/
theorem heap_run_invariant {heap : LinkedListAllocator} {live : List (Nat × Layout)}
    (run : Reachable heap live) :
    heap.holes.Pairwise (fun a b => a.start < b.start) ∧
      (∀ h ∈ heap.holes, h.start % 8 = 0 ∧ holeSize ≤ h.size) ∧
      heap.holes.Pairwise (fun a b => a.stop ≠ b.start) ∧
      Partitions (heap.holes ++ live.map blockOf) heapStart (heapStart + heapSize) ∧
      (∀ p ∈ live, ∃ size align, adjust p.2 = some (size, align) ∧ blockOf p = ⟨p.1, size⟩ ∧
        p.2.align ∣ p.1) ∧
      heap.allocated = ((live.map blockOf).map Extent.size).sum ∧
      heap.liveAllocations = live.length ∧
      (∀ {heap' : LinkedListAllocator} {live' : List (Nat × Layout)}, Reachable heap' live' →
        (∀ b, b ∈ live.map blockOf ↔ b ∈ live'.map blockOf) → heap'.holes = heap.holes) ∧
      (live = [] → heap.holes = [⟨heapStart, heapSize⟩]) := by
  have acc := reachable_accounted run
  have nonempty : ∀ {heap : LinkedListAllocator} {live : List (Nat × Layout)},
      Accounted heap live → Nonempty heap.holes := fun acc h member =>
    sized_pos (acc.tidy.sized h member)
  have determined : ∀ {heap' : LinkedListAllocator} {live' : List (Nat × Layout)},
      Reachable heap' live' → (∀ b, b ∈ live.map blockOf ↔ b ∈ live'.map blockOf) →
      heap'.holes = heap.holes := by
    intro heap' live' run' same
    have acc' := reachable_accounted run'
    exact separated_ext acc'.tidy.separated acc.tidy.separated (nonempty acc') (nonempty acc)
      fun x => (hits_of_same_blocks acc acc' same x).symm
  refine ⟨acc.tidy.separated.imp fun gap => ?_, fun h member => ?_,
    acc.tidy.separated.imp Nat.ne_of_lt, partitions_of_hits acc.count, fun p member => ?_,
    acc.allocated, acc.liveAllocations, determined, fun none => ?_⟩
  · simp only [stop] at gap
    omega
  · have sized := acc.tidy.sized h member
    exact ⟨Nat.mod_eq_zero_of_dvd sized.1, sized.2.2⟩
  · obtain ⟨size, align, sizes⟩ := acc.adjusted p member
    exact ⟨size, align, sizes, by simp [blockOf, sizes], acc.aligned p member⟩
  · exact (determined .init (by simp [none])).symm

theorem live_within {heap : LinkedListAllocator} {live : List (Nat × Layout)} {p : Nat × Layout}
    (run : Reachable heap live) (member : p ∈ live) : p.2.size ≤ heapSize := by
  have acc := reachable_accounted run
  obtain ⟨size, align, sizes⟩ := acc.adjusted p member
  have block : blockOf p = ⟨p.1, size⟩ := by simp [blockOf, sizes]
  have larger := adjust_le sizes
  have filled : ∀ x, p.1 ≤ x → x < p.1 + size → heapStart ≤ x ∧ x < heapStart + heapSize := by
    intro x low high
    have covered : 0 < hits (heap.holes ++ live.map blockOf) x :=
      hits_pos.mpr ⟨blockOf p, List.mem_append_right _ (List.mem_map_of_mem member), by
        rw [block]
        exact ⟨low, high⟩⟩
    rw [acc.count] at covered
    by_contra outside
    rw [if_neg outside] at covered
    exact absurd covered (Nat.lt_irrefl 0)
  have some' : 0 < size := by
    have sized := sized_pos (acc.sized p member)
    rwa [block] at sized
  have first := filled p.1 (Nat.le_refl _) (by omega)
  have last := filled (p.1 + size - 1) (by omega) (by omega)
  omega

theorem word_aligned : ∃ k < 64, 8 = 2 ^ k := ⟨3, by decide, rfl⟩

def tableLayout : Layout := ⟨24, 64, ⟨6, by decide, rfl⟩, by decide⟩

def wordsLayout : Layout := ⟨40, 8, word_aligned, by decide⟩

private theorem alloc_table :
    alloc init tableLayout = some (some heapStart,
      ⟨[⟨heapStart + 64, heapSize - 64⟩], 64, 1⟩) := by
  decide +kernel

private theorem alloc_words :
    alloc ⟨[⟨heapStart + 64, heapSize - 64⟩], 64, 1⟩ wordsLayout = some (some (heapStart + 64),
      ⟨[⟨heapStart + 104, heapSize - 104⟩], 104, 2⟩) := by
  decide +kernel

private theorem dealloc_table :
    dealloc ⟨[⟨heapStart + 104, heapSize - 104⟩], 104, 2⟩ heapStart tableLayout =
      some ⟨[⟨heapStart, 64⟩, ⟨heapStart + 104, heapSize - 104⟩], 40, 1⟩ := by
  decide +kernel

/-- Two values are allocated and the first is given back: the live one lies between two holes. -/
theorem heap_run_invariant_freed :
    Partitions ([⟨heapStart, 64⟩, ⟨heapStart + 104, heapSize - 104⟩] ++
      [blockOf (heapStart + 64, wordsLayout)]) heapStart (heapStart + heapSize) := by
  have live : Reachable ⟨[⟨heapStart + 104, heapSize - 104⟩], 104, 2⟩
      [(heapStart + 64, wordsLayout), (heapStart, tableLayout)] :=
    .alloc (.alloc .init alloc_table) alloc_words
  have freed : Reachable ⟨[⟨heapStart, 64⟩, ⟨heapStart + 104, heapSize - 104⟩], 40, 1⟩
      ([(heapStart + 64, wordsLayout)] ++ []) := .dealloc live dealloc_table
  exact (heap_run_invariant freed).2.2.2.1

end FiveAM.Heap.HoleList
