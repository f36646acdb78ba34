/- GID: FiveAM/Memory/Choosing
   source: kernel/src/replace.rs
   digest: What the four replacement policies change, and when they name a page. -/

import FiveAM.Memory.Policies
import FiveAM.Memory.Residency

set_option autoImplicit false
set_option relaxedAutoImplicit false

namespace FiveAM.Memory.Choosing

open FiveAM.Process.TaskTable (Word)
open FiveAM.Memory.Entries FiveAM.Memory.Frames FiveAM.Memory.Replace FiveAM.Memory.PageTables
open FiveAM.Memory.Policies FiveAM.Memory.Ownership FiveAM.Memory.Residency FiveAM.Lib.RadixTables
open FiveAM.Lib.SecondChance

variable {s s' : Paging} {managed live : Finset Word} {hand chain : List Word} {root : Word}
  {pages : Pages}

/-- The pages a policy is shown are where their entries are. -/
def Shown (m : Words) (root : Word) (pages : Pages) : Prop :=
  ∀ i, i < pages.length → OnPage m root (pageAt pages i)

theorem pageAt_mem {i : Nat} (inside : i < pages.length) : pageAt pages i ∈ pages := by
  rw [pageAt, List.getD_eq_getElem _ _ inside]
  exact List.getElem_mem inside

theorem shown_userPages (sound : Sound s.words root) : Shown s.words root (userPages s root) :=
  fun _ inside => (mem_userPages sound (pageAt_mem inside)).1

theorem Shown.aging (shown : Shown s.words root pages) (member : root ∈ live)
    (aging : Aging s s' live) : Shown s'.words root pages :=
  fun i inside => aging.onPage member (shown i inside)

theorem entry_ageless (shown : Shown s.words root pages) (member : root ∈ live)
    (aging : Aging s s' live) {i : Nat} (inside : i < pages.length) :
    ageless (PageSet.entry s' pages i) = ageless (PageSet.entry s pages i) := by
  have before := (shown i inside).leaf
  have after := (aging.onPage member (shown i inside)).leaf
  unfold PageSet.entry
  rw [← before, ← after]
  exact aging.leaves root member _

theorem eligible_aging (shown : Shown s.words root pages) (member : root ∈ live)
    (aging : Aging s s' live) {i : Nat} (inside : i < pages.length) :
    PageSet.eligible s' pages i = PageSet.eligible s pages i := by
  have same := entry_ageless shown member aging inside
  have owners : ∀ f, s'.shareCount f = s.shareCount f := fun f => by
    simp only [Paging.shareCount, aging.shared]
  unfold PageSet.eligible Paging.isShared
  rw [present_ageless same, swapped_ageless same, frameOf_ageless same, owners]

section Sweeps

variable {is : List Nat} {table : List (Word × Nat)}

theorem aging_clear (books : Books { s with shared := table } managed live hand chain)
    (member : root ∈ live) (shown : Shown s.words root pages) {i : Nat}
    (inside : i < pages.length) : Aging s (PageSet.clearAccessed s pages i) live :=
  (Aging.write books member (shown i inside) (ageless_and_not_accessed _)).owners s.shared

private theorem aging_clockSweep (books : Books { s with shared := table } managed live hand chain)
    (member : root ∈ live) (shown : Shown s.words root pages) (inside : ∀ i ∈ is, i < pages.length) :
    Aging s (clockSweep s pages is).2 live := by
  have aging : Aging s (swept pages is s).2 live :=
    sweep_invariant (P := fun s' => Aging s s' live) (Aging.refl s live) fun s' i there aging _ _ =>
      aging.trans (aging_clear ((aging.owners table).books books) member (shown.aging member aging)
        (inside i there))
  rw [clockSweep_eq]
  split
  · rename_i v s' found
    rw [found] at aging
    exact aging.remember _ rfl rfl
  · rename_i s' found
    rw [found] at aging
    exact aging

private theorem aging_sweep (books : Books { s with shared := table } managed live hand chain)
    (member : root ∈ live) (shown : Shown s.words root pages) (inside : ∀ i ∈ is, i < pages.length) :
    Aging s (is.foldl (fun s index => if PageSet.accessed s pages index then
      PageSet.clearAccessed s pages index else s) s) live := by
  induction is generalizing s with
  | nil => exact Aging.refl s live
  | cons j rest ih =>
      have here : j < pages.length := inside j List.mem_cons_self
      have later : ∀ i ∈ rest, i < pages.length := fun i there =>
        inside i (List.mem_cons_of_mem _ there)
      rw [List.foldl_cons]
      split_ifs
      · have clear := aging_clear books member shown here
        exact clear.trans (ih ((clear.owners table).books books) (shown.aging member clear) later)
      · exact ih books shown later

theorem aging_choose (table : List (Word × Nat))
    (books : Books { s with shared := table } managed live hand chain) (member : root ∈ live)
    (shown : Shown s.words root pages) :
    Aging s (choose s pages).2 live := by
  unfold choose
  split
  · exact Aging.refl s live
  · unfold nruChoose
    split
    · exact Aging.refl s live
    · exact aging_sweep books member shown fun i => List.mem_range.mp
  · obtain ⟨state, active, arrivals, -⟩ := randomChoose_spec s pages
    rw [state]
    exact (Aging.refl s live).remember _ active arrivals
  · rw [clockChoose_eq]
    exact aging_clockSweep books member shown fun i there =>
      (List.mem_append.mp there).elim circle_lt circle_lt

end Sweeps

/-- A page the active policy can name: one that may be taken, and for `Fifo` one
whose arrival is before its largest stamp. -/
def Takeable (s : Paging) (pages : Pages) (i : Nat) : Prop :=
  PageSet.eligible s pages i = true ∧
    (s.replacers.active = 1 → Fifo.age s.replacers.fifo (pageAt pages i).address < 2 ^ 64 - 1)

instance (s : Paging) (pages : Pages) (i : Nat) : Decidable (Takeable s pages i) :=
  inferInstanceAs (Decidable (_ ∧ (_ → _)))

end FiveAM.Memory.Choosing
