/- GID: FiveAM/Memory/FifoTable
   source: kernel/src/replace.rs
   digest: The table of arrivals as a queue: arrivals go to its end, and its head is taken. -/

import FiveAM.Memory.ArrivalOrder

set_option autoImplicit false
set_option relaxedAutoImplicit false

namespace FiveAM.Memory.FifoTable

open FiveAM.Process.TaskTable (Word)
open FiveAM.Memory.Entries FiveAM.Memory.Frames FiveAM.Memory.Replace FiveAM.Memory.Policies
open FiveAM.Memory.Conformance

variable {p : Fifo} {queue : List Word} {address : Word}

/-- The table records the addresses of a queue, in the order of their stamps, and each in one
place. -/
structure Holds (p : Fifo) (queue : List Word) : Prop where
  once : ∀ i j, p.stamp i ≠ 0 → p.stamp j ≠ 0 → p.address i = p.address j → i = j
  members : ∀ a, a ∈ queue ↔ ∃ i, p.stamp i ≠ 0 ∧ p.address i = a
  order : queue.Pairwise fun a b => Fifo.age p a < Fifo.age p b
  below : ∀ i, p.stamp i < p.next

theorem Holds.nodup (holds : Holds p queue) : queue.Nodup :=
  holds.order.imp fun {_ _} less same => Nat.ne_of_lt less (congrArg (Fifo.age p) same)

theorem Holds.positive (holds : Holds p queue) : 0 < p.next :=
  Nat.lt_of_le_of_lt (Nat.zero_le _) (holds.below 0)

theorem slotOf_none : Fifo.slotOf p address = none ↔
    ∀ i, p.stamp i ≠ 0 → p.address i ≠ address := by
  unfold Fifo.slotOf
  rw [List.find?_eq_none]
  constructor
  · intro nowhere i some' same
    exact nowhere i (List.mem_finRange i) (decide_eq_true ⟨some', same⟩)
  · intro nowhere i _ here
    obtain ⟨some', same⟩ := of_decide_eq_true here
    exact nowhere i some' same

theorem age_place (once : ∀ i j, p.stamp i ≠ 0 → p.stamp j ≠ 0 → p.address i = p.address j → i = j)
    {i : Fin tracked} (some' : p.stamp i ≠ 0) : Fifo.age p (p.address i) = p.stamp i := by
  unfold Fifo.age
  cases found : Fifo.slotOf p (p.address i) with
  | none => exact absurd rfl (slotOf_none.mp found i some')
  | some j =>
      have here := List.find?_some found
      obtain ⟨some'', same⟩ := of_decide_eq_true here
      dsimp only
      rw [once j i some'' some' same]

theorem Holds.age_lt (holds : Holds p queue) (a : Word) : Fifo.age p a < p.next := by
  unfold Fifo.age
  split
  · exact holds.below _
  · exact holds.positive

theorem holds_noArrivals : Holds noArrivals [] where
  once i j some' := absurd rfl some'
  members a := by
    refine iff_of_false List.not_mem_nil ?_
    rintro ⟨i, some', -⟩
    exact some' rfl
  order := List.Pairwise.nil
  below _ := Nat.one_pos

theorem Holds.free (holds : Holds p queue) (room : queue.length < tracked) :
    ∃ i, p.stamp i = 0 := by
  by_contra full
  push Not at full
  have inside : Finset.univ.image p.address ⊆ queue.toFinset := by
    intro a listed
    obtain ⟨i, -, rfl⟩ := Finset.mem_image.mp listed
    exact List.mem_toFinset.mpr ((holds.members _).mpr ⟨i, full i, rfl⟩)
  have many : (Finset.univ.image p.address).card = tracked := by
    rw [Finset.card_image_of_injective _ fun i j same => holds.once i j (full i) (full j) same,
      Finset.card_univ, Fintype.card_fin]
  have few := (Finset.card_le_card inside).trans queue.toFinset_card_le
  omega

theorem Holds.arrive (holds : Holds p queue) (new : address ∉ queue)
    (room : queue.length < tracked) : Holds (Fifo.onResident p address) (queue ++ [address]) := by
  have unrecorded : Fifo.slotOf p address = none := by
    refine slotOf_none.mpr fun i some' same => new ?_
    exact (holds.members address).mpr ⟨i, some', same⟩
  obtain ⟨place, empty, shape⟩ : ∃ place, p.stamp place = 0 ∧ Fifo.onResident p address =
      ⟨Function.update p.address place address, Function.update p.stamp place p.next,
        p.next + 1⟩ := by
    obtain ⟨i, zero⟩ := holds.free room
    cases found : (List.finRange tracked).find? fun i => decide (p.stamp i = 0) with
    | none => exact absurd (decide_eq_true zero) (List.find?_eq_none.mp found i (List.mem_finRange i))
    | some place =>
        have here := List.find?_some found
        refine ⟨place, of_decide_eq_true here, ?_⟩
        unfold Fifo.onResident
        rw [unrecorded, if_neg (by decide), found]
        rfl
  have elsewhere : ∀ i, p.stamp i ≠ 0 → i ≠ place := fun i some' same => some' (same ▸ empty)
  have other : ∀ i, p.stamp i ≠ 0 → p.address i ≠ address := slotOf_none.mp unrecorded
  have positive := holds.positive
  generalize Fifo.onResident p address = p' at shape ⊢
  have stamps : p'.stamp = Function.update p.stamp place p.next := by rw [shape]
  have addresses : p'.address = Function.update p.address place address := by rw [shape]
  have next : p'.next = p.next + 1 := by rw [shape]
  have placed : p'.stamp place ≠ 0 ∧ p'.address place = address := by
    rw [stamps, addresses, Function.update_self, Function.update_self]
    exact ⟨Nat.ne_of_gt positive, rfl⟩
  have rest : ∀ i, i ≠ place → p'.stamp i = p.stamp i ∧ p'.address i = p.address i := by
    intro i apart
    rw [stamps, addresses, Function.update_of_ne apart, Function.update_of_ne apart]
    exact ⟨rfl, rfl⟩
  have once : ∀ i j, p'.stamp i ≠ 0 → p'.stamp j ≠ 0 → p'.address i = p'.address j → i = j := by
    intro i j some' some'' same
    by_cases here : i = place
    · by_cases there : j = place
      · rw [here, there]
      · rw [(rest j there).1] at some''
        rw [(rest j there).2, here, placed.2] at same
        exact absurd same.symm (other j some'')
    · rw [(rest i here).1] at some'
      rw [(rest i here).2] at same
      by_cases there : j = place
      · rw [there, placed.2] at same
        exact absurd same (other i some')
      · rw [(rest j there).1] at some''
        rw [(rest j there).2] at same
        exact holds.once i j some' some'' same
  have last : Fifo.age p' address = p.next := by
    have here := age_place once placed.1
    rw [placed.2] at here
    rw [here, stamps, Function.update_self]
  have kept : ∀ a ∈ queue, Fifo.age p' a = Fifo.age p a := by
    intro a inside
    obtain ⟨i, some', rfl⟩ := (holds.members a).mp inside
    obtain ⟨stamp, same⟩ := rest i (elsewhere i some')
    have here := age_place once (i := i) (by rw [stamp]; exact some')
    rw [same, stamp] at here
    rw [here, age_place holds.once some']
  refine ⟨once, fun a => ?_, ?_, fun i => ?_⟩
  · rw [List.mem_append, List.mem_singleton, holds.members]
    constructor
    · rintro (⟨i, some', same⟩ | rfl)
      · obtain ⟨stamp, same'⟩ := rest i (elsewhere i some')
        exact ⟨i, by rw [stamp]; exact some', same'.trans same⟩
      · exact ⟨place, placed⟩
    · rintro ⟨i, some', same⟩
      by_cases here : i = place
      · rw [here, placed.2] at same
        exact Or.inr same.symm
      · rw [(rest i here).1] at some'
        rw [(rest i here).2] at same
        exact Or.inl ⟨i, some', same⟩
  · refine List.pairwise_append.mpr ⟨?_, List.pairwise_singleton _ _, fun a inside b end' => ?_⟩
    · refine holds.order.imp_of_mem fun {a b} inside inside' less => ?_
      rw [kept a inside, kept b inside']
      exact less
    · rw [List.mem_singleton.mp end', last, kept a inside]
      exact holds.age_lt a
  · rw [stamps, next, Function.update_apply]
    split_ifs
    · exact Nat.lt_succ_self _
    · exact Nat.lt_succ_of_lt (holds.below i)

theorem Holds.depart (holds : Holds p (address :: queue)) :
    Holds (Fifo.onEvicted p address) queue := by
  have nodup := holds.nodup
  obtain ⟨place, some', here⟩ := (holds.members address).mp List.mem_cons_self
  have shape : Fifo.onEvicted p address = { p with stamp := Function.update p.stamp place 0 } := by
    unfold Fifo.onEvicted
    cases found : Fifo.slotOf p address with
    | none => exact absurd here (slotOf_none.mp found place some')
    | some i =>
        have first := List.find?_some found
        obtain ⟨some'', same⟩ := of_decide_eq_true first
        rw [holds.once i place some'' some' (same.trans here.symm)]
  rw [shape]
  have apart : ∀ i, Function.update p.stamp place 0 i ≠ 0 → i ≠ place ∧ p.stamp i ≠ 0 := by
    intro i some''
    have other : i ≠ place := fun same => some'' (by rw [same, Function.update_self])
    rw [Function.update_of_ne other] at some''
    exact ⟨other, some''⟩
  have once : ∀ i j, Function.update p.stamp place 0 i ≠ 0 →
      Function.update p.stamp place 0 j ≠ 0 → p.address i = p.address j → i = j :=
    fun i j one two => holds.once i j (apart i one).2 (apart j two).2
  have members : ∀ a, a ∈ queue ↔
      ∃ i, Function.update p.stamp place 0 i ≠ 0 ∧ p.address i = a := by
    intro a
    constructor
    · intro inside
      obtain ⟨i, some'', rfl⟩ := (holds.members a).mp (List.mem_cons_of_mem _ inside)
      refine ⟨i, ?_, rfl⟩
      have other : i ≠ place := fun same => by
        rw [same, here] at inside
        exact (List.nodup_cons.mp nodup).1 inside
      rw [Function.update_of_ne other]
      exact some''
    · rintro ⟨i, some'', rfl⟩
      obtain ⟨other, some''⟩ := apart i some''
      rcases List.mem_cons.mp ((holds.members _).mpr ⟨i, some'', rfl⟩) with same | inside
      · exact absurd (holds.once i place some'' some' (same.trans here.symm)) other
      · exact inside
  have kept : ∀ a ∈ queue,
      Fifo.age { p with stamp := Function.update p.stamp place 0 } a = Fifo.age p a := by
    intro a inside
    obtain ⟨i, some'', rfl⟩ := (members a).mp inside
    have left : Fifo.age { p with stamp := Function.update p.stamp place 0 } (p.address i) =
        Function.update p.stamp place 0 i := age_place once some''
    rw [left, Function.update_of_ne (apart i some'').1, age_place holds.once (apart i some'').2]
  refine ⟨once, members, ?_, fun i => ?_⟩
  · refine (List.pairwise_cons.mp holds.order).2.imp_of_mem fun {a b} inside inside' less => ?_
    rw [kept a inside, kept b inside']
    exact less
  · dsimp only
    rw [Function.update_apply]
    split_ifs
    · exact holds.positive
    · exact holds.below i

theorem Holds.chooses {s : Paging} {pages : Pages} (holds : Holds s.replacers.fifo (address :: queue))
    (listed : ∃ i, i < pages.length ∧ (pageAt pages i).address = address)
    (within : ∀ i, i < pages.length → (pageAt pages i).address ∈ address :: queue)
    (able : ∀ i, i < pages.length → PageSet.eligible s pages i = true)
    (dated : s.replacers.fifo.next ≤ 2 ^ 64 - 1) :
    ∃ i, i < pages.length ∧ (fifoChoose s pages).1 = some i ∧ (pageAt pages i).address = address := by
  obtain ⟨j, inside, here⟩ := listed
  cases named : (fifoChoose s pages).1 with
  | none =>
      refine absurd named (fifoChoose_some inside (able j inside) ?_)
      exact Nat.lt_of_lt_of_le (holds.age_lt _) dated
  | some i =>
      obtain ⟨inside', -, -⟩ := fifoChoose_named named
      refine ⟨i, inside', rfl, ?_⟩
      have least := fifoChoose_least named inside (able j inside)
      rw [here] at least
      rcases List.mem_cons.mp (within i inside') with same | later
      · exact same
      · exact absurd least (Nat.not_le.mpr ((List.pairwise_cons.mp holds.order).1 _ later))

end FiveAM.Memory.FifoTable
