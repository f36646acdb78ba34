/- GID: FiveAM/Memory/Boot
   source: kernel/src/memory.rs, kernel/src/swap.rs, kernel/src/replace.rs
   digest: Memory as it is when the kernel starts, and its books after `init`. -/

import FiveAM.Memory.Ownership

set_option autoImplicit false
set_option relaxedAutoImplicit false

namespace FiveAM.Memory.Boot

open FiveAM.Process.TaskTable (Word)
open FiveAM.Memory.Entries FiveAM.Memory.Frames FiveAM.Memory.Replace
open FiveAM.Memory.Ownership FiveAM.Lib.RadixTables

/-- The statics as they are declared, over memory and a drive that hold zeros. -/
def statics : Paging where
  words := fun _ _ => 0
  head := 0
  free := 0
  shared := []
  cr3 := 0
  replacers := ⟨⟨0⟩, ⟨fun _ => 0, fun _ => 0, 1⟩, ⟨0⟩, 0⟩
  used := fun _ => false
  disk := ⟨fun _ _ => 0, fun _ => none, 0, []⟩

/-- The loop of `init` over the frames of the usable regions. -/
def init (s : Paging) (frames : List Word) : Paging := frames.foldl Paging.deallocate s

variable {frames : List Word}

private theorem init_given {s : Paging} {managed : Finset Word} {chain : List Word}
    (books : Books s managed ∅ frames chain) :
    Books (init s frames) managed ∅ [] (frames.reverse ++ chain) := by
  induction frames generalizing s chain with
  | nil => exact books
  | cons frame rest ih =>
      have later := ih books.give.2
      rw [List.reverse_cons, List.append_assoc]
      exact later

theorem init_books (framed : ∀ f ∈ frames, Framed f) (once : frames.Nodup) :
    Books (init statics frames) frames.toFinset ∅ [] frames.reverse := by
  have nothing : ∀ own leaf (m : Words), forest userTree own leaf m 3 ∅ = 0 := fun _ _ _ =>
    Finset.sum_empty
  have begun : Books statics frames.toFinset ∅ frames [] := by
    refine ⟨⟨rfl, rfl, fun f => ?_, fun f => ?_, ⟨List.nodup_nil, fun _ inside =>
      absurd inside List.not_mem_nil⟩, fun f inside => framed f (List.mem_toFinset.mp inside)⟩,
      fun root inside => absurd inside (Finset.notMem_empty root)⟩
    · rw [tableCount, occurs, refCount, nothing, nothing, List.count_nil]
      by_cases inside : f ∈ frames
      · rw [if_pos (List.mem_toFinset.mpr inside), List.count_eq_one_of_mem once inside]
        rfl
      · rw [if_neg fun there => inside (List.mem_toFinset.mp there), List.count_eq_zero.mpr inside]
        rfl
    · rw [refCount, nothing]
      rfl
  have given := init_given begun
  rw [List.append_nil] at given
  exact given

end FiveAM.Memory.Boot
