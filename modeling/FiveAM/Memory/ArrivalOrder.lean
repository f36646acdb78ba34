/- GID: FiveAM/Memory/ArrivalOrder
   source: kernel/src/replace.rs, kernel/src/memory.rs
   digest: Which page `Fifo` takes, against how long the pages have been resident. -/

import FiveAM.Memory.Conformance
import FiveAM.Memory.FrameOwnership

set_option autoImplicit false
set_option relaxedAutoImplicit false

namespace FiveAM.Memory.ArrivalOrder

open FiveAM.Process.TaskTable (Word)
open FiveAM.Memory.Entries FiveAM.Memory.Frames FiveAM.Memory.Replace FiveAM.Memory.PageTables
open FiveAM.Memory.Swap FiveAM.Memory.Policies FiveAM.Memory.Conformance
open FiveAM.Memory.Boot
open FiveAM.Memory.FrameOwnership (Machine)

inductive Event where
  /-- `AddressSpace::new`. -/
  | create
  /-- `AddressSpace::map` of a frame just taken from the allocator. -/
  | map (root address flags : Word)
  | activate (root : Word)
  | fork (root : Word)
  | cowFault (address : Word)
  /-- `demand_fault` of a task whose stack reaches from `limit` to `top`. -/
  | demandFault (top limit address : Word)
  /-- `evict_one`, and its frame is given back. -/
  | evict (root : Word)
  | swapIn (address : Word)
  | destroy (root : Word)

def step (k : Machine) : Event → Machine
  | .create =>
      match newSpace k.paging with
      | (none, s) => ⟨s, k.live⟩
      | (some root, s) => ⟨s, insert root k.live⟩
  | .map root address flags =>
      if root ∈ k.live then
        match k.paging.allocate with
        | (none, s) => ⟨s, k.live⟩
        | (some frame, s) => ⟨(mapIn s root address frame flags).2, k.live⟩
      else k
  | .activate root => ⟨{ k.paging with cr3 := root }, k.live⟩
  | .fork root =>
      if root ∈ k.live then
        match fork k.paging root with
        | (none, s) => ⟨s, k.live⟩
        | (some child, s) => ⟨s, insert child k.live⟩
      else k
  | .cowFault address => ⟨(cowFault k.paging address).2, k.live⟩
  | .demandFault top limit address => ⟨(demandFault k.paging top limit address).2, k.live⟩
  | .evict root =>
      if root ∈ k.live then
        match evictOne k.paging root with
        | (none, s) => ⟨s, k.live⟩
        | (some frame, s) => ⟨s.deallocate frame, k.live⟩
      else k
  | .swapIn address => ⟨(swapIn k.paging address).2, k.live⟩
  | .destroy root =>
      if root ∈ k.live then ⟨destroy k.paging root, k.live.erase root⟩ else k

def count : Nat := 4

/-- Install a different policy, which forgets everything. -/
def install (s : Paging) (index : Nat) : Bool × Paging :=
  if count ≤ index then (false, s)
  else (true, reset { s with replacers := { s.replacers with active := index } })

/-- `Fifo` has been installed, and there is no address space yet. -/
structure Installed (k : Machine) : Prop where
  active : k.paging.replacers.active = 1
  fifo : k.paging.replacers.fifo = noArrivals
  live : k.live = ∅

/-- The states of a run up to now, the latest first. -/
inductive History : List Machine → Prop where
  | start {k : Machine} (installed : Installed k) : History [k]
  | step {k : Machine} {earlier : List Machine} (run : History (k :: earlier)) (e : Event) :
      History (ArrivalOrder.step k e :: k :: earlier)

/-- The page at this address is resident in the space at this root. -/
def Resident (root address : Word) (k : Machine) : Prop :=
  root ∈ k.live ∧ ∃ page ∈ userPages k.paging root, page.address = address

instance decidableResident (root address : Word) : DecidablePred (Resident root address) :=
  fun k => inferInstanceAs (Decidable (root ∈ k.live ∧
    ∃ page ∈ userPages k.paging root, page.address = address))

/-- In how many states up to now the page has been resident without interruption. -/
def residence (history : List Machine) (root address : Word) : Nat :=
  (history.takeWhile fun k => decide (Resident root address k)).length

/-- The stamp for the next arrival, so many states ago. -/
def nextStamp (history : List Machine) (ago : Nat) : Nat :=
  (history[ago]?).elim 0 fun k => k.paging.replacers.fifo.next

/-- What `Fifo` has recorded under the address was recorded in the step in which the page
became resident. -/
def Recorded (k : Machine) (earlier : List Machine) (root address : Word) : Prop :=
  let since := residence (k :: earlier) root address
  let age := Fifo.age k.paging.replacers.fifo address
  nextStamp (k :: earlier) since ≤ age ∧ age < nextStamp (k :: earlier) (since - 1)

instance decidableRecorded (k : Machine) (earlier : List Machine) (root address : Word) :
    Decidable (Recorded k earlier root address) :=
  inferInstanceAs (Decidable (_ ∧ _))

section Telling

variable {s s' s'' : Paging}

/-- The policy stays the same one, and its stamps do not run backwards. -/
structure Later (s s' : Paging) : Prop where
  active : s'.replacers.active = s.replacers.active
  next : s.replacers.fifo.next ≤ s'.replacers.fifo.next

theorem Later.refl (s : Paging) : Later s s := ⟨rfl, Nat.le_refl _⟩

theorem Later.trans (first : Later s s') (second : Later s' s'') : Later s s'' :=
  ⟨second.active.trans first.active, first.next.trans second.next⟩

theorem Later.of_eq (same : s'.replacers = s.replacers) : Later s s' := by
  refine ⟨?_, ?_⟩
  · rw [same]
  · rw [same]

theorem next_onResident (p : Fifo) (address : Word) : p.next ≤ (Fifo.onResident p address).next := by
  unfold Fifo.onResident
  split_ifs
  · exact Nat.le_refl _
  · exact Nat.le_succ _

theorem next_onEvicted (p : Fifo) (address : Word) : (Fifo.onEvicted p address).next = p.next := by
  unfold Fifo.onEvicted
  split
  · rfl
  · rfl

theorem later_noteResident (s : Paging) (address : Word) : Later s (noteResident s address) := by
  unfold noteResident
  split_ifs
  · exact ⟨rfl, next_onResident _ _⟩
  · exact .refl s

theorem later_noteEvicted (s : Paging) (address : Word) : Later s (noteEvicted s address) := by
  unfold noteEvicted
  split_ifs
  · exact ⟨rfl, (next_onEvicted _ _).ge⟩
  · exact .refl s

theorem replacers_allocate (s : Paging) : s.allocate.2.replacers = s.replacers := by
  unfold Paging.allocate
  split_ifs
  · rfl
  · rfl

theorem replacers_unshare (s : Paging) (frame : Word) :
    (s.unshare frame).2.replacers = s.replacers := by
  unfold Paging.unshare
  split
  · rfl
  · rfl

theorem replacers_share (s : Paging) (frame : Word) : (s.share frame).replacers = s.replacers := by
  unfold Paging.share
  split
  · rfl
  · rfl

theorem replacers_descend (address wide : Word) (level : Nat) (table : Word) (s : Paging) :
    (descend address wide level table s).2.replacers = s.replacers := by
  induction level generalizing table s with
  | zero => rfl
  | succ level ih =>
      unfold descend
      dsimp only
      split_ifs
      · exact ih _ _
      · exact ih _ _
      · have kept := replacers_allocate s
        split
        · rename_i taken
          rw [taken] at kept
          exact kept
        · rename_i taken
          rw [taken] at kept
          exact (ih _ _).trans kept

theorem later_mapPageIn (s : Paging) (root address frame flags : Word) :
    Later s (mapPageIn s root address frame flags).2 := by
  have kept := replacers_descend address (flags &&& user) 3 root s
  unfold mapPageIn
  dsimp only
  split
  · rename_i found
    rw [found] at kept
    exact .of_eq kept
  · rename_i found
    rw [found] at kept
    split_ifs
    · exact .of_eq kept
    · change Later s (noteResident _ _)
      refine Later.trans ?_ (later_noteResident _ _)
      exact .of_eq kept
    · exact .of_eq kept

theorem later_mapIn (s : Paging) (root address frame flags : Word) :
    Later s (mapIn s root address frame flags).2 := by
  unfold mapIn
  split_ifs
  · exact .refl s
  · exact later_mapPageIn s root address frame flags

theorem replacers_allocateSlot (s : Paging) : s.allocateSlot.2.replacers = s.replacers := by
  unfold Paging.allocateSlot
  split
  · rfl
  · rfl

theorem replacers_freeSlot (s : Paging) (slot : Nat) :
    (s.freeSlot slot).replacers = s.replacers := by
  unfold Paging.freeSlot
  split_ifs
  · rfl
  · rfl

theorem later_evictPage (s : Paging) (page : Page) : Later s (evictPage s page).2 := by
  have kept := replacers_allocateSlot s
  unfold evictPage
  dsimp only
  generalize s.allocateSlot = answer at kept ⊢
  obtain ⟨_ | slot, s1⟩ := answer
  · exact .of_eq kept
  · have kept' : (s1.writeOut slot.val (frameOf (s.words page.table page.index))).2.replacers =
        s.replacers := kept
    dsimp only
    generalize s1.writeOut slot.val (frameOf (s.words page.table page.index)) = answer at kept' ⊢
    obtain ⟨_ | _, s2⟩ := answer
    · exact .of_eq ((replacers_freeSlot s2 slot.val).trans kept')
    · change Later s (noteEvicted _ _)
      refine Later.trans ?_ (later_noteEvicted _ _)
      exact .of_eq kept'

theorem later_evictOne (s : Paging) (root : Word) : Later s (evictOne s root).2 := by
  obtain ⟨active, fifo⟩ := choose_keeps s (userPages s root)
  have chosen : Later s (choose s (userPages s root)).2 := ⟨active, by rw [fifo]⟩
  unfold evictOne
  dsimp only
  split_ifs
  · exact .refl s
  · split
    · rename_i found
      rw [found] at chosen
      exact chosen
    · rename_i found
      rw [found] at chosen
      split_ifs
      · exact chosen
      · exact chosen.trans (later_evictPage _ _)

theorem later_allocateOrEvict (s : Paging) : Later s (allocateOrEvict s).2 := by
  have kept := replacers_allocate s
  unfold allocateOrEvict
  split
  · rename_i taken
    rw [taken] at kept
    exact .of_eq kept
  · rename_i taken
    rw [taken] at kept
    exact Later.trans (.of_eq kept) (later_evictOne _ _)

theorem later_swapIn (s : Paging) (address : Word) : Later s (swapIn s address).2 := by
  unfold swapIn
  dsimp only
  split
  · exact .refl s
  · split_ifs
    · exact .refl s
    · have taken := later_allocateOrEvict s
      generalize allocateOrEvict s = answer at taken ⊢
      obtain ⟨_ | frame, s1⟩ := answer
      · exact taken
      · dsimp only at taken ⊢
        generalize slotOf _ = slot
        have kept : (s1.readIn slot frame).2.replacers = s1.replacers := rfl
        generalize s1.readIn slot frame = answer at kept ⊢
        obtain ⟨_ | _, s2⟩ := answer
        · exact taken.trans (.of_eq kept)
        · change Later s (noteResident _ _)
          refine Later.trans ?_ (later_noteResident _ _)
          exact taken.trans (.of_eq ((replacers_freeSlot s2 slot).trans kept))

theorem later_cowFault (s : Paging) (address : Word) : Later s (cowFault s address).2 := by
  unfold cowFault
  dsimp only
  split_ifs
  · exact .refl s
  · split
    · exact .refl s
    · split_ifs
      · exact .refl s
      · generalize frameOf _ = frame
        have taken := Later.trans (.of_eq (replacers_unshare s frame))
          (later_allocateOrEvict (s.unshare frame).2)
        generalize allocateOrEvict (s.unshare frame).2 = answer at taken ⊢
        obtain ⟨_ | fresh, s1⟩ := answer
        · exact taken
        · exact taken.trans (.of_eq rfl)
      · exact .of_eq rfl

theorem later_demandFault (s : Paging) (top limit address : Word) :
    Later s (demandFault s top limit address).2 := by
  unfold demandFault
  dsimp only
  split_ifs
  · exact .refl s
  · exact .refl s
  · exact .refl s
  · have taken := later_allocateOrEvict s
    generalize allocateOrEvict s = answer at taken ⊢
    obtain ⟨_ | frame, s1⟩ := answer
    · exact taken
    · dsimp only at taken ⊢
      have mapped := later_mapPageIn s1 s1.cr3 (pageOf address) frame (user ||| writable)
      unfold mapPage
      generalize mapPageIn s1 s1.cr3 (pageOf address) frame (user ||| writable) = answer at mapped ⊢
      obtain ⟨_ | _, s2⟩ := answer
      · exact taken.trans mapped
      · exact (taken.trans mapped).trans (.of_eq rfl)

theorem replacers_newSpace (s : Paging) : (newSpace s).2.replacers = s.replacers := by
  have kept := replacers_allocate s
  unfold newSpace
  generalize s.allocate = answer at kept ⊢
  obtain ⟨_ | root, s1⟩ := answer
  · exact kept
  · exact kept

theorem later_forkPages (child : Word) (pages : Pages) (s : Paging) :
    Later s (forkPages child pages s).2 := by
  induction pages generalizing s with
  | nil => exact .refl s
  | cons page rest ih =>
      unfold forkPages
      dsimp only
      generalize marked : (if has (flagsOf page.entry) writable = true then
        s.write page.table page.index _ else s) = s1
      have kept : s1.replacers = s.replacers := by
        rw [← marked]
        split_ifs
        · rfl
        · rfl
      generalize (_ : Word) &&& ~~~present = flags
      have mapped := later_mapPageIn s1 child page.address (frameOf page.entry) flags
      generalize mapPageIn s1 child page.address (frameOf page.entry) flags = answer at mapped ⊢
      obtain ⟨_ | _, s2⟩ := answer
      · exact Later.trans (.of_eq kept) mapped
      · exact (Later.trans (.of_eq kept) mapped).trans
          (Later.trans (.of_eq (replacers_share s2 _)) (ih _))

theorem later_fork (s : Paging) (root : Word) : Later s (fork s root).2 := by
  have kept := replacers_newSpace s
  unfold fork
  generalize newSpace s = answer at kept ⊢
  obtain ⟨_ | child, s1⟩ := answer
  · exact .of_eq kept
  · dsimp only at kept ⊢
    have looped := later_forkPages child (userPages s1 root) s1
    generalize forkPages child (userPages s1 root) s1 = answer at looped ⊢
    obtain ⟨_ | _, s2⟩ := answer
    · exact Later.trans (.of_eq kept) looped
    · exact Later.trans (.of_eq kept) looped

theorem replacers_freeLeaf (s : Paging) (entry : Word) :
    (freeLeaf s entry).replacers = s.replacers := by
  unfold freeLeaf
  dsimp only
  split_ifs
  · rfl
  · exact replacers_unshare s _
  · rfl

theorem replacers_deallocate (s : Paging) (frame : Word) :
    (s.deallocate frame).replacers = s.replacers := rfl

theorem replacers_write (s : Paging) (frame : Word) (i : Index) (w : Word) :
    (s.write frame i w).replacers = s.replacers := rfl

theorem replacers_freeSubtree (level : Nat) (table : Word) (s : Paging) :
    (freeSubtree level table s).replacers = s.replacers := by
  have through : ∀ (f : Paging → Index → Paging) (is : List Index) (s : Paging),
      (∀ s i, (f s i).replacers = s.replacers) → (is.foldl f s).replacers = s.replacers := by
    intro f is
    induction is with
    | nil => exact fun s _ => rfl
    | cons i rest ih => exact fun s kept => (ih (f s i) kept).trans (kept s i)
  induction level generalizing table s with
  | zero =>
      unfold freeSubtree
      rw [replacers_deallocate]
      exact through _ _ _ fun s i => replacers_freeLeaf s _
  | succ level ih =>
      unfold freeSubtree
      rw [replacers_deallocate]
      refine through _ _ _ fun s i => ?_
      dsimp only
      split_ifs
      · rfl
      · exact replacers_freeLeaf s _
      · exact ih _ _

theorem replacers_destroy (s : Paging) (root : Word) : (destroy s root).replacers = s.replacers := by
  have freed := replacers_freeSubtree 2 (frameOf (s.words root 0)) s
  unfold destroy
  dsimp only
  rw [replacers_deallocate]
  split_ifs
  · rw [replacers_write]
    exact freed
  · rfl

theorem later_step (k : Machine) (e : Event) : Later k.paging (step k e).paging := by
  cases e with
  | create =>
      have kept := replacers_newSpace k.paging
      unfold step
      dsimp only
      generalize newSpace k.paging = answer at kept ⊢
      obtain ⟨_ | root, s⟩ := answer
      · exact .of_eq kept
      · exact .of_eq kept
  | map root address flags =>
      have kept := replacers_allocate k.paging
      unfold step
      dsimp only
      split_ifs
      · generalize k.paging.allocate = answer at kept ⊢
        obtain ⟨_ | frame, s⟩ := answer
        · exact .of_eq kept
        · exact Later.trans (.of_eq kept) (later_mapIn s root address frame flags)
      · exact .refl _
  | activate root => exact .of_eq rfl
  | fork root =>
      have forked := later_fork k.paging root
      unfold step
      dsimp only
      split_ifs
      · generalize fork k.paging root = answer at forked ⊢
        obtain ⟨_ | child, s⟩ := answer
        · exact forked
        · exact forked
      · exact .refl _
  | cowFault address => exact later_cowFault k.paging address
  | demandFault top limit address => exact later_demandFault k.paging top limit address
  | evict root =>
      have evicted := later_evictOne k.paging root
      unfold step
      dsimp only
      split_ifs
      · generalize evictOne k.paging root = answer at evicted ⊢
        obtain ⟨_ | frame, s⟩ := answer
        · exact evicted
        · exact evicted.trans (.of_eq rfl)
      · exact .refl _
  | swapIn address => exact later_swapIn k.paging address
  | destroy root =>
      unfold step
      dsimp only
      split_ifs
      · exact .of_eq (replacers_destroy k.paging root)
      · exact .refl _

end Telling

section Order

variable {k : Machine} {earlier : List Machine}

theorem active_history {history : List Machine} (run : History history) :
    ∀ k ∈ history, k.paging.replacers.active = 1 := by
  induction run with
  | start installed =>
      intro k inside
      rw [List.mem_singleton.mp inside]
      exact installed.active
  | @step k earlier run e ih =>
      intro k' inside
      rcases List.mem_cons.mp inside with rfl | inside
      · rw [(later_step k e).active]
        exact ih k List.mem_cons_self
      · exact ih k' inside

theorem nextStamp_anti {history : List Machine} (run : History history) {m n : Nat}
    (before : m ≤ n) : nextStamp history n ≤ nextStamp history m := by
  induction run generalizing m n with
  | @start k installed =>
      cases n with
      | zero =>
          rw [Nat.le_zero.mp before]
      | succ n => exact Nat.zero_le _
  | @step k earlier run e ih =>
      have now : nextStamp (k :: earlier) 0 ≤ nextStamp (step k e :: k :: earlier) 0 :=
        (later_step k e).next
      cases n with
      | zero =>
          rw [Nat.le_zero.mp before]
      | succ n =>
          cases m with
          | zero => exact Nat.le_trans (ih (Nat.zero_le n)) now
          | succ m => exact ih (Nat.le_of_succ_le_succ before)

theorem residence_resident {root address : Word} (now : Resident root address k) :
    residence (k :: earlier) root address = residence earlier root address + 1 := by
  simp [residence, now]

theorem residence_absent {root address : Word} (now : ¬Resident root address k) :
    residence (k :: earlier) root address = 0 := by
  simp [residence, now]

theorem recorded_arrived {root address : Word} (e : Event)
    (new : ¬Resident root address k) (now : Resident root address (step k e)) :
    Recorded (step k e) (k :: earlier) root address ↔
      k.paging.replacers.fifo.next ≤ Fifo.age (step k e).paging.replacers.fifo address ∧
        Fifo.age (step k e).paging.replacers.fifo address <
          (step k e).paging.replacers.fifo.next := by
  have since : residence (step k e :: k :: earlier) root address = 1 := by
    rw [residence_resident now, residence_absent new]
  unfold Recorded
  rw [since]
  exact Iff.rfl

theorem recorded_kept {root address : Word} (e : Event) (before : Resident root address k)
    (now : Resident root address (step k e))
    (same : Fifo.age (step k e).paging.replacers.fifo address =
      Fifo.age k.paging.replacers.fifo address) :
    Recorded (step k e) (k :: earlier) root address ↔ Recorded k earlier root address := by
  have since : residence (step k e :: k :: earlier) root address =
      residence (k :: earlier) root address + 1 := residence_resident now
  have positive : residence (k :: earlier) root address ≠ 0 := by
    rw [residence_resident before]
    exact Nat.succ_ne_zero _
  obtain ⟨n, count⟩ := Nat.exists_eq_succ_of_ne_zero positive
  unfold Recorded
  rw [since, same, count]
  exact Iff.rfl

theorem recorded_order {root older newer : Word} (run : History (k :: earlier))
    (first : Recorded k earlier root older) (second : Recorded k earlier root newer)
    (longer : residence (k :: earlier) root newer < residence (k :: earlier) root older) :
    Fifo.age k.paging.replacers.fifo older < Fifo.age k.paging.replacers.fifo newer :=
  calc Fifo.age k.paging.replacers.fifo older
      < nextStamp (k :: earlier) (residence (k :: earlier) root older - 1) := first.2
    _ ≤ nextStamp (k :: earlier) (residence (k :: earlier) root newer) :=
        nextStamp_anti run (by omega)
    _ ≤ Fifo.age k.paging.replacers.fifo newer := second.1

theorem evictOne_fifo {s : Paging} (active : s.replacers.active = 1) (root : Word) :
    evictOne s root = match (fifoChoose s (userPages s root)).1 with
      | none => (none, s)
      | some i => evictPage s (pageAt (userPages s root) i) := by
  have chooses : choose s (userPages s root) = ((fifoChoose s (userPages s root)).1, s) := by
    unfold choose
    rw [active]
    rfl
  unfold evictOne
  dsimp only
  rw [chooses]
  cases named : (fifoChoose s (userPages s root)).1 with
  | none =>
      dsimp only
      rw [ite_self]
  | some i =>
      obtain ⟨inside, able, -⟩ := fifoChoose_named named
      have some' : (userPages s root).isEmpty = false := by
        rw [List.isEmpty_eq_false_iff_exists_mem]
        exact ⟨_, List.getElem_mem inside⟩
      dsimp only
      rw [some', if_neg (by decide), if_neg]
      rintro (out | spared)
      · exact absurd inside (Nat.not_lt.mpr out)
      · rw [able] at spared
        cases spared

/-- In every run with `Fifo`, the page that `evict_one` takes from a space has been resident
in it the longest of those that may be taken, wherever what is recorded under the addresses
of these pages was recorded as they became resident. -/
theorem evictOne_longest {root frame : Word} {s : Paging} (run : History (k :: earlier))
    (recorded : ∀ i, i < (userPages k.paging root).length →
      PageSet.eligible k.paging (userPages k.paging root) i = true →
        Recorded k earlier root (pageAt (userPages k.paging root) i).address)
    (taken : evictOne k.paging root = (some frame, s)) :
    ∃ i, i < (userPages k.paging root).length ∧
      PageSet.eligible k.paging (userPages k.paging root) i = true ∧
      evictPage k.paging (pageAt (userPages k.paging root) i) = (some frame, s) ∧
      ∀ j, j < (userPages k.paging root).length →
        PageSet.eligible k.paging (userPages k.paging root) j = true →
          residence (k :: earlier) root (pageAt (userPages k.paging root) j).address ≤
            residence (k :: earlier) root (pageAt (userPages k.paging root) i).address := by
  rw [evictOne_fifo (active_history run k List.mem_cons_self)] at taken
  split at taken
  · cases taken
  · rename_i i named
    obtain ⟨inside, able, -⟩ := fifoChoose_named named
    refine ⟨i, inside, able, taken, fun j inside' able' => ?_⟩
    have least := fifoChoose_least named inside' able'
    by_contra longer
    exact absurd least (Nat.not_le.mpr (recorded_order run (recorded j inside' able')
      (recorded i inside able) (Nat.not_le.mp longer)))

private def elevenFrames : Machine :=
  ⟨(install (init statics [0x10a000, 0x109000, 0x108000, 0x107000, 0x106000, 0x105000, 0x104000,
    0x103000, 0x102000, 0x101000, 0x100000]) 1).2, ∅⟩

private def goOn (history : List Machine) (events : List Event) : List Machine :=
  events.foldl (fun history e => (history.head?.map fun k => step k e).toList ++ history) history

private theorem goOn_history {history : List Machine} (run : History history)
    (events : List Event) : History (goOn history events) := by
  induction events generalizing history with
  | nil => exact run
  | cons e rest ih =>
      cases run with
      | start installed => exact ih (.step (.start installed) e)
      | step run e' => exact ih (.step (.step run e') e)

private theorem elevenFrames_history (events : List Event) : ∃ k earlier,
    goOn [elevenFrames] events = k :: earlier ∧ History (k :: earlier) := by
  have run : History (goOn [elevenFrames] events) := goOn_history (.start ⟨rfl, rfl, rfl⟩) events
  cases listed : goOn [elevenFrames] events with
  | nil =>
      rw [listed] at run
      cases run
  | cons k earlier => exact ⟨k, earlier, rfl, listed ▸ run⟩

private def latest (history : List Machine) (fact : Machine → List Machine → Bool) : Bool :=
  match history with
  | [] => false
  | k :: earlier => fact k earlier

/-- Of two pages of a program the first goes out first, though it lies higher. -/
theorem evictOne_longest_first : ∃ k earlier, History (k :: earlier) ∧
    ∃ i, i < (userPages k.paging 0x100000).length ∧
      ∀ j, j < (userPages k.paging 0x100000).length →
        PageSet.eligible k.paging (userPages k.paging 0x100000) j = true →
          residence (k :: earlier) 0x100000 (pageAt (userPages k.paging 0x100000) j).address ≤
            residence (k :: earlier) 0x100000 (pageAt (userPages k.paging 0x100000) i).address := by
  have facts : latest (goOn [elevenFrames] [.create, .map 0x100000 0x401000 (user ||| writable),
      .map 0x100000 0x400000 (user ||| writable)]) (fun k earlier =>
      decide (
        (∀ i, i < (userPages k.paging 0x100000).length →
          PageSet.eligible k.paging (userPages k.paging 0x100000) i = true →
            Recorded k earlier 0x100000 (pageAt (userPages k.paging 0x100000) i).address) ∧
        (evictOne k.paging 0x100000).1 = some 0x101000)) = true := by
    decide +kernel
  obtain ⟨k, earlier, listed, run⟩ := elevenFrames_history [.create,
    .map 0x100000 0x401000 (user ||| writable), .map 0x100000 0x400000 (user ||| writable)]
  rw [listed] at facts
  obtain ⟨recorded, taken⟩ := of_decide_eq_true facts
  obtain ⟨i, inside, -, -, longest⟩ := evictOne_longest run recorded (Prod.ext taken rfl)
  exact ⟨k, earlier, run, i, inside, longest⟩

/-- Another space had a page at the same address before: the page that is taken has been
resident for a shorter time than the one that stays. -/
theorem evictOne_longest_not : ∃ k earlier, History (k :: earlier) ∧
    ∃ i j, i < (userPages k.paging 0x100000).length ∧ j < (userPages k.paging 0x100000).length ∧
      PageSet.eligible k.paging (userPages k.paging 0x100000) j = true ∧
      evictOne k.paging 0x100000 = evictPage k.paging (pageAt (userPages k.paging 0x100000) i) ∧
      (evictOne k.paging 0x100000).1.isSome = true ∧
      residence (k :: earlier) 0x100000 (pageAt (userPages k.paging 0x100000) i).address <
        residence (k :: earlier) 0x100000 (pageAt (userPages k.paging 0x100000) j).address := by
  have facts : latest (goOn [elevenFrames] [.create, .create, .map 0x101000 0x400000 (user ||| writable),
      .map 0x100000 0x401000 (user ||| writable), .map 0x100000 0x400000 (user ||| writable)]) (fun k earlier =>
      decide (
        (userPages k.paging 0x100000).length = 2 ∧
        PageSet.eligible k.paging (userPages k.paging 0x100000) 1 = true ∧
        (fifoChoose k.paging (userPages k.paging 0x100000)).1 = some 0 ∧
        (evictOne k.paging 0x100000).1.isSome = true ∧
        residence (k :: earlier) 0x100000 (pageAt (userPages k.paging 0x100000) 0).address <
          residence (k :: earlier) 0x100000 (pageAt (userPages k.paging 0x100000) 1).address)) =
        true := by
    decide +kernel
  obtain ⟨k, earlier, listed, run⟩ := elevenFrames_history [.create, .create,
    .map 0x101000 0x400000 (user ||| writable), .map 0x100000 0x401000 (user ||| writable),
    .map 0x100000 0x400000 (user ||| writable)]
  rw [listed] at facts
  obtain ⟨two, able, named, taken, longer⟩ := of_decide_eq_true facts
  refine ⟨k, earlier, run, 0, 1, ?_, ?_, able, ?_, taken, longer⟩
  · rw [two]
    decide
  · rw [two]
    decide
  · rw [evictOne_fifo (active_history run k List.mem_cons_self), named]

end Order

end FiveAM.Memory.ArrivalOrder
