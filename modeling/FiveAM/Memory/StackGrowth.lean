/- GID: FiveAM/Memory/StackGrowth
   source: kernel/src/memory.rs
   digest: Where a promised stack grows, and where demand_fault leaves everything alone. -/

import FiveAM.Memory.CopyOnWrite

set_option autoImplicit false
set_option relaxedAutoImplicit false

namespace FiveAM.Memory.StackGrowth

open FiveAM.Process.TaskTable (Word)
open FiveAM.Memory.Entries FiveAM.Memory.Frames FiveAM.Memory.PageTables FiveAM.Memory.Swap
open FiveAM.Memory.Ownership FiveAM.Memory.Return FiveAM.Memory.Spaces
open FiveAM.Memory.CopyOnWrite FiveAM.Lib.RadixTables

variable {s : Paging} {managed live : Finset Word} {hand chain : List Word} {address : Word}

theorem translateFrom_isSome {root : Word} (sound : Sound s.words root)
    (low : indexes address 3 = 0) {level : Nat} {table : Word}
    (route : Route userTree s.words (indexes address) 3 root level table) :
    (translateFrom s address level table).isSome =
      has (entryAt userTree s.words level table (indexes address)) present := by
  induction level generalizing table with
  | zero =>
      change (if _ then _ else _ : Option (Word × List Word)).isSome = has (s.words table _) present
      split_ifs with absent
      · exact absent.symm
      · exact (Bool.eq_true_of_not_eq_false absent).symm
  | succ level ih =>
      unfold translateFrom
      rcases sound.entry low route with ⟨absent, ends⟩ | ⟨there, -, down⟩
      · rw [entryAt_stop ends]
        simp only [absent, if_true]
        rfl
      · obtain ⟨-, small, -, -⟩ := child_some down
        rw [entryAt_child down, ← ih (route.next down)]
        simp [there, small]

theorem translateFrom_frame {root : Word} (sound : Sound s.words root)
    (low : indexes address 3 = 0) {level : Nat} {table : Word}
    (route : Route userTree s.words (indexes address) 3 root level table)
    {found : Word × List Word} (there : translateFrom s address level table = some found) :
    found.1 = frameOf (entryAt userTree s.words level table (indexes address)) +
      (address &&& 0xfff) := by
  induction level generalizing table found with
  | zero =>
      unfold translateFrom at there
      dsimp only at there
      split_ifs at there
      rw [← Option.some.inj there]
      rfl
  | succ level ih =>
      unfold translateFrom at there
      rcases sound.entry low route with ⟨absent, -⟩ | ⟨present', -, down⟩
      · simp [absent] at there
      · obtain ⟨-, small, -, -⟩ := child_some down
        simp only [present', small, Bool.true_eq_false, if_false, Bool.false_eq_true] at there
        obtain ⟨rest, inner, rfl⟩ := Option.map_eq_some_iff.mp there
        rw [entryAt_child down]
        have here := ih (route.next down) inner
        exact here

theorem translate_isSome (sound : Sound s.words s.cr3) (low : indexes address 3 = 0) :
    (translate s (pageOf address)).isSome = has (leafAt s.words s.cr3 (indexes address)) present := by
  have turns : indexes (pageOf address) = indexes address := funext (indexes_pageOf address)
  have page : indexes (pageOf address) 3 = 0 := turns ▸ low
  rw [← turns]
  exact translateFrom_isSome sound page (.here 3 s.cr3)

theorem pageOf_lt {limit : Word} (aligned : limit.toNat % 2 ^ 12 = 0) :
    pageOf address < limit ↔ address < limit := by
  have page : (pageOf address).toNat / 2 ^ 12 = address.toNat / 2 ^ 12 := page_toNat address
  rw [BitVec.lt_def, BitVec.lt_def]
  omega

theorem demandFault_declines {top limit : Word}
    (declines : top = 0 ∨ top ≤ address ∨ pageOf address < limit ∨
      (translate s (pageOf address)).isSome = true) :
    demandFault s top limit address = (none, s) := by
  unfold demandFault
  dsimp only
  split_ifs with outside guarded mapped
  · rfl
  · rfl
  · rfl
  · rcases declines with zero | above | below | there
    · exact absurd (Or.inl zero) outside
    · exact absurd (Or.inr above) outside
    · exact absurd below guarded
    · exact absurd there mapped

/-- What a stack that grows comes to: a frame full of zeros is mapped at the page,
writable and for the user, and every other mapping is what it was. -/
def Backs (s : Paging) (live : Finset Word) (address : Word) (answer : Option Word × Paging) :
    Prop :=
  ∃ fresh s', answer = (some (pageOf address), s') ∧
    leafAt s'.words s.cr3 (indexes address) = leafFor fresh (user ||| writable) ∧
    s'.words fresh = (fun _ => 0) ∧
    ∀ r ∈ live, ∀ p, ¬(r = s.cr3 ∧ SamePage p (indexes address)) →
      leafAt s'.words r p = leafAt s.words r p

/-- A page of the promised range that is not there is mapped, if there are frames for
it and for the tables it lacks. -/
theorem demandFault_backs (books : Books s managed live hand chain) (member : s.cr3 ∈ live)
    (inside : address < userSpaceEnd) {top limit : Word} (promised : top ≠ 0) (below : address < top)
    (above : ¬pageOf address < limit)
    (absent : has (leafAt s.words s.cr3 (indexes address)) present = false)
    (room : missing s.words s.cr3 address < s.free) :
    Backs s live address (demandFault s top limit address) := by
  have free : s.head ≠ 0 := by
    intro none'
    have empty := books.account.empty_iff.mp none'
    rw [books.account.count, empty] at room
    exact Nat.not_lt_zero _ room
  have unmapped : ¬(translate s (pageOf address)).isSome = true := by
    rw [translate_isSome (books.sound s.cr3 member) (low_of_user inside), absent]
    simp
  have reached : ¬(top = 0 ∨ top ≤ address) := by
    rintro (zero | beyond)
    · exact promised zero
    · exact BitVec.not_le.mpr below beyond
  obtain ⟨grows, answers⟩ := demandFault_open books member inside free reached above unmapped
  rw [books.account.count] at room
  have answer := answers room
  generalize demandFault s top limit address = result at grows answer
  cases grows with
  | declined => exact absurd answer (by simp)
  | short => exact absurd answer (by simp)
  | @grown fresh rest s' first enough absent' books' leaves zero =>
      classical
      refine ⟨fresh, s', rfl, ?_, zero, fun r there p other => ?_⟩
      · rw [leaves s.cr3 member, if_pos ⟨rfl, fun _ _ => rfl⟩]
      · rw [leaves r there p, if_neg other]

end FiveAM.Memory.StackGrowth
