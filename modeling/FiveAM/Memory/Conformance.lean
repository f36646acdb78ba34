/- GID: FiveAM/Memory/Conformance
   source: kernel/src/replace.rs, kernel/src/memory.rs, kernel/src/selftest.rs
   digest: Every policy names a page exactly when it may take one, whatever it was told before. -/

import FiveAM.Memory.Forking
import FiveAM.Lib.Runs

set_option autoImplicit false
set_option relaxedAutoImplicit false

namespace FiveAM.Memory.Conformance

open FiveAM.Process.TaskTable (Word)
open FiveAM.Memory.Entries FiveAM.Memory.Frames FiveAM.Memory.Replace FiveAM.Memory.PageTables
open FiveAM.Memory.Policies FiveAM.Memory.Ownership FiveAM.Memory.Residency FiveAM.Memory.Choosing
open FiveAM.Lib.RadixTables FiveAM.Lib.Runs

section Listing

variable {s : Paging} {managed live : Finset Word} {hand chain : List Word} {root : Word}

theorem separate_userPages (books : Books s managed live hand chain) (member : root ∈ live) :
    Separate (userPages s root) := by
  have once : ∀ i j, i < j → j < (userPages s root).length →
      ¬SamePage (indexes (pageAt (userPages s root) i).address)
        (indexes (pageAt (userPages s root) j).address) := by
    intro i j low high
    unfold pageAt
    rw [List.getD_eq_getElem _ _ (low.trans high), List.getD_eq_getElem _ _ high]
    exact List.pairwise_iff_getElem.mp (Forking.userPages_apart s root) i j _ _ low
  intro i j low high table index
  have shown := shown_userPages (books.sound root member)
  have here := shown i low
  have there := shown j high
  have same : SamePage (indexes (pageAt (userPages s root) j).address)
      (indexes (pageAt (userPages s root) i).address) := by
    classical
    by_contra other
    have old := there.leaf
    have new := leafAt_write books member here.route (~~~s.words (pageAt (userPages s root) i).table
      (pageAt (userPages s root) i).index) member (indexes (pageAt (userPages s root) j).address)
    rw [if_neg fun both => other both.2, old, leafAt, entryAt_route (route_leaf books member here.route
      _ member there.route), ← there.index, ← table, ← index, ← here.index] at new
    simp only [Paging.write, Function.update_self] at new
    exact absurd new (by simp)
  rcases Nat.lt_trichotomy i j with below | equal | above
  · exact absurd (fun k bound => (same k bound).symm) (once i j below high)
  · exact equal
  · exact absurd same (once j i above low)

end Listing

section Calls

/-- `Fifo::new`. -/
def noArrivals : Fifo := ⟨fun _ => 0, fun _ => 0, 1⟩

def reset (s : Paging) : Paging :=
  match s.replacers.active with
  | 1 => { s with replacers := { s.replacers with fifo := noArrivals } }
  | 2 => s
  | 3 => { s with replacers := { s.replacers with random := ⟨0⟩ } }
  | _ => { s with replacers := { s.replacers with clock := ⟨0⟩ } }

/-- What a policy is called for, and what the rest of the kernel does to memory between
two calls: anything. -/
inductive Call where
  | choose (pages : Pages)
  | onResident (address : Word)
  | onEvicted (address : Word)
  | reset
  | elsewhere (memory : Paging)

def call (s : Paging) : Call → Option Paging
  | .choose pages => some (choose s pages).2
  | .onResident address => some (noteResident s address)
  | .onEvicted address => some (noteEvicted s address)
  | .reset => some (reset s)
  | .elsewhere memory => some { memory with replacers := s.replacers }

/-- One of the four policies as it is declared. -/
def Unasked (s : Paging) : Prop :=
  s.replacers.clock.hand = 0 ∧ s.replacers.fifo = noArrivals ∧ s.replacers.random.state = 0

/-- No arrival is recorded under the largest stamp, which `Fifo::choose` takes for none. -/
def Countable (s : Paging) : Call → Prop
  | .onResident _ => s.replacers.fifo.next < 2 ^ 64 - 1
  | _ => True

instance decidableCountable (s : Paging) : (c : Call) → Decidable (Countable s c)
  | .onResident _ => inferInstanceAs (Decidable (_ < _))
  | .choose _ => inferInstanceAs (Decidable True)
  | .onEvicted _ => inferInstanceAs (Decidable True)
  | .reset => inferInstanceAs (Decidable True)
  | .elsewhere _ => inferInstanceAs (Decidable True)

/-- A policy names a page that may be taken exactly when there is one, and changes
nothing in memory but accessed bits, which it clears. -/
structure Conforms (s : Paging) (pages : Pages) : Prop where
  named : ∀ i, (choose s pages).1 = some i →
    i < pages.length ∧ PageSet.eligible s pages i = true
  some_iff : (choose s pages).1.isSome ↔
    ∃ i, i < pages.length ∧ PageSet.eligible s pages i = true
  fades : Fades s (choose s pages).2

variable {s : Paging} {p : Fifo}

theorem age_lt {bound : Nat} (positive : 0 < bound) (stamps : ∀ i, p.stamp i < bound)
    (address : Word) : Fifo.age p address < bound := by
  unfold Fifo.age
  split
  · exact stamps _
  · exact positive

theorem conforms_of_stamps (stamps : ∀ i, s.replacers.fifo.stamp i < 2 ^ 64 - 1) (pages : Pages) :
    Conforms s pages where
  named i here := by
    obtain ⟨inside, able, -⟩ := choose_named here
    exact ⟨inside, able⟩
  some_iff := by
    constructor
    · intro some'
      obtain ⟨i, here⟩ := Option.isSome_iff_exists.mp some'
      obtain ⟨inside, able, -⟩ := choose_named here
      exact ⟨i, inside, able⟩
    · rintro ⟨i, inside, able⟩
      apply Option.isSome_iff_ne_none.mpr
      exact choose_some inside able fun _ => age_lt (by decide) stamps _
  fades := fades_choose s pages

/-- Arrivals are stamped in turn: nothing bears a stamp that is still to come. -/
def Stamped (bound : Nat) (p : Fifo) : Prop := p.next ≤ bound ∧ ∀ i, p.stamp i < bound

theorem stamped_noArrivals : Stamped (2 ^ 64 - 1) noArrivals := by
  refine ⟨by decide, fun _ => ?_⟩
  change 0 < 2 ^ 64 - 1
  decide

theorem stamped_onResident {bound : Nat} (stamped : Stamped bound p) (room : p.next < bound)
    (address : Word) : Stamped bound (Fifo.onResident p address) := by
  unfold Fifo.onResident
  split_ifs
  · exact stamped
  · refine ⟨room, fun i => ?_⟩
    dsimp only
    rw [Function.update_apply]
    split_ifs
    · exact room
    · exact stamped.2 i

theorem stamped_onEvicted {bound : Nat} (stamped : Stamped bound p) (positive : 0 < bound)
    (address : Word) : Stamped bound (Fifo.onEvicted p address) := by
  unfold Fifo.onEvicted
  split
  · refine ⟨stamped.1, fun i => ?_⟩
    dsimp only
    rw [Function.update_apply]
    split_ifs
    · exact positive
    · exact stamped.2 i
  · exact stamped

theorem stamped_call {s' : Paging} {c : Call} (stamped : Stamped (2 ^ 64 - 1) s.replacers.fifo)
    (counts : Countable s c) (taken : call s c = some s') :
    Stamped (2 ^ 64 - 1) s'.replacers.fifo := by
  cases c with
  | choose pages =>
      obtain rfl : (choose s pages).2 = s' := Option.some.inj taken
      rw [(choose_keeps s pages).2]
      exact stamped
  | onResident address =>
      obtain rfl : noteResident s address = s' := Option.some.inj taken
      unfold noteResident
      split_ifs
      · exact stamped_onResident stamped counts address
      · exact stamped
  | onEvicted address =>
      obtain rfl : noteEvicted s address = s' := Option.some.inj taken
      unfold noteEvicted
      split_ifs
      · exact stamped_onEvicted stamped (by decide) address
      · exact stamped
  | reset =>
      obtain rfl : reset s = s' := Option.some.inj taken
      unfold reset
      split
      · exact stamped_noArrivals
      · exact stamped
      · exact stamped
      · exact stamped
  | elsewhere memory =>
      obtain rfl : { memory with replacers := s.replacers } = s' := Option.some.inj taken
      exact stamped

theorem stamped_of_reached (reached : Reached call Unasked Countable s) :
    Stamped (2 ^ 64 - 1) s.replacers.fifo := by
  refine reached.invariant (fun s begun => ?_) fun s c s' stamped counts taken =>
    stamped_call stamped counts taken
  rw [begun.2.1]
  exact stamped_noArrivals

/-- Each of the policies conforms in every state that fewer arrivals than there are
stamps lead to, on every set of pages. -/
theorem replacers_conform (reached : Reached call Unasked Countable s) (pages : Pages) :
    Conforms s pages :=
  conforms_of_stamps (stamped_of_reached reached).2 pages

theorem crowd_unasked (active : Nat) : Unasked (crowd active 0) := ⟨rfl, rfl, rfl⟩

theorem replacers_conform_crowd :
    ∃ s, runAll (fun s c => if Countable s c then call s c else none) (crowd 1 0)
        [.onResident 0x50001000, .onResident 0x50000000, .choose (fabricate crowdEntries),
          .onEvicted 0x50001000] = some s ∧ Conforms s (fabricate crowdEntries) := by
  obtain ⟨s, run⟩ : ∃ s, runAll (fun s c => if Countable s c then call s c else none) (crowd 1 0)
      [.onResident 0x50001000, .onResident 0x50000000, .choose (fabricate crowdEntries),
        .onEvicted 0x50001000] = some s := ⟨_, rfl⟩
  exact ⟨s, run, replacers_conform (Reached.runGuarded (.start (crowd_unasked 1)) run) _⟩

private theorem first_place {found : Fin tracked → Bool} (here : found 0 = true) :
    (List.finRange tracked).find? found = some 0 := by
  rw [show List.finRange tracked = 0 :: (List.finRange 127).map Fin.succ from List.finRange_succ,
    List.find?_cons_of_pos here]

private theorem slotOf_blank (blank : ∀ i, p.stamp i = 0) (address : Word) :
    Fifo.slotOf p address = none := by
  unfold Fifo.slotOf
  rw [List.find?_eq_none]
  intro i _
  simp [blank i]

private theorem onResident_blank (blank : ∀ i, p.stamp i = 0) (address : Word) :
    Fifo.onResident p address =
      ⟨Function.update p.address 0 address, Function.update p.stamp 0 p.next, p.next + 1⟩ := by
  unfold Fifo.onResident
  rw [slotOf_blank blank, first_place (by simp [blank 0])]
  rfl

private theorem slotOf_arrived (blank : ∀ i, p.stamp i = 0) (positive : p.next ≠ 0)
    (address : Word) : Fifo.slotOf (Fifo.onResident p address) address = some 0 := by
  rw [onResident_blank blank]
  exact first_place (by simp [positive])

theorem arrivals_noteResident (active : s.replacers.active = 1) (address : Word) :
    (noteResident s address).replacers.active = 1 ∧
      (noteResident s address).replacers.fifo = Fifo.onResident s.replacers.fifo address := by
  unfold noteResident
  rw [if_pos active]
  exact ⟨active, rfl⟩

theorem departures_noteEvicted (active : s.replacers.active = 1) (address : Word) :
    (noteEvicted s address).replacers.active = 1 ∧
      (noteEvicted s address).replacers.fifo = Fifo.onEvicted s.replacers.fifo address := by
  unfold noteEvicted
  rw [if_pos active]
  exact ⟨active, rfl⟩

private theorem many_arrivals (n : Nat) :
    ∃ s, Reached call Unasked (fun _ _ => True) s ∧ s.replacers.active = 1 ∧
      (∀ i, s.replacers.fifo.stamp i = 0) ∧ s.replacers.fifo.next = n + 1 := by
  induction n with
  | zero => exact ⟨crowd 1 0, .start (crowd_unasked 1), rfl, fun _ => rfl, rfl⟩
  | succ n ih =>
      obtain ⟨s, reached, active, blank, next⟩ := ih
      obtain ⟨active1, come⟩ := arrivals_noteResident active 0x50000000
      obtain ⟨active2, go⟩ := departures_noteEvicted active1 0x50000000
      refine ⟨_, .step (e := .onEvicted 0x50000000) (.step (e := .onResident 0x50000000) reached
        trivial rfl) trivial rfl, active2, ?_⟩
      rw [go, come]
      unfold Fifo.onEvicted
      rw [slotOf_arrived blank (by omega), onResident_blank blank]
      refine ⟨fun i => ?_, ?_⟩
      · dsimp only
        rw [Function.update_idem, Function.update_apply]
        split_ifs
        · rfl
        · exact blank i
      · dsimp only
        omega

/-- The page that arrives under the largest stamp is never named: not every state in
reach lets `Fifo` find the one page that may be taken. -/
theorem replacers_conform_not_last :
    ¬∀ s, Reached call Unasked (fun _ _ => True) s → ∀ pages, Conforms s pages := by
  intro always
  obtain ⟨s, reached, active, blank, next⟩ := many_arrivals (2 ^ 64 - 2)
  have come : Reached call Unasked (fun _ _ => True) (noteResident s 0x50000000) :=
    .step (e := .onResident 0x50000000) reached trivial rfl
  have shown : Reached call Unasked (fun _ _ => True)
      { crowd 1 0 with replacers := (noteResident s 0x50000000).replacers } :=
    .step (e := .elsewhere (crowd 1 0)) come trivial rfl
  have conforms := always _ shown (fabricate (crowdEntries.take 1))
  have able : PageSet.eligible (crowd 1 0) (fabricate (crowdEntries.take 1)) 0 = true := by decide
  obtain ⟨i, here⟩ := Option.isSome_iff_exists.mp (conforms.some_iff.mpr ⟨0, by decide, able⟩)
  obtain ⟨inside, -, dated⟩ := choose_named here
  obtain rfl : i = 0 := Nat.lt_one_iff.mp inside
  obtain ⟨active, come⟩ := arrivals_noteResident active 0x50000000
  have young := dated active
  rw [come] at young
  unfold Fifo.age at young
  rw [show (pageAt (fabricate (crowdEntries.take 1)) 0).address = 0x50000000 from by decide,
    slotOf_arrived blank (by omega), onResident_blank blank] at young
  simp only [Function.update_self, next] at young
  omega

end Calls

end FiveAM.Memory.Conformance
