/- GID: FiveAM/Process/FailedForks
   source: kernel/src/syscall.rs, kernel/src/memory.rs, kernel/src/task.rs
   digest: A fork that fails: when it leaves memory and the tables of the kernel as they were. -/

import FiveAM.Memory.EagerCopies
import FiveAM.Process.System

set_option autoImplicit false
set_option relaxedAutoImplicit false

namespace FiveAM.Process.FailedForks

open FiveAM.Process.TaskTable FiveAM.Process.Lifecycle
open FiveAM.Process.Machine (Kernel)
open FiveAM.Memory.Entries FiveAM.Memory.Frames FiveAM.Memory.Replace FiveAM.Memory.PageTables
open FiveAM.Memory.Ownership FiveAM.Memory.Residency FiveAM.Memory.Eviction FiveAM.Memory.Contents
open FiveAM.Memory.Spaces FiveAM.Memory.Teardown FiveAM.Memory.Forking FiveAM.Memory.Inherited
open FiveAM.Memory.EagerCopies FiveAM.Lib.RadixTables
open FiveAM.Memory.FrameOwnership (booted Usable)

section Tables

variable {s s' : Paging} {managed live : Finset Word} {hand chain : List Word} {root child : Word}

private theorem tables_of_child {m m' : Words} (outside : child ∉ live) {f : Word} {n : Nat}
    (all : tableCount m' (insert child live) f = tableCount m (insert child live) f + n)
    (own : treeCount m' child f = treeCount m child f + n) :
    tableCount m' live f = tableCount m live f := by
  have split : ∀ m, tableCount m (insert child live) f = treeCount m child f + tableCount m live f :=
    fun m => Finset.sum_insert outside
  rw [split, split, own] at all
  omega

theorem forkPage_tables (books : Books s managed (insert child live) hand chain)
    (member : root ∈ live) (outside : child ∉ live) {page : Page} (on : OnPage s.words root page)
    (entry : page.entry = s.words page.table page.index) (f : Word) :
    tableCount (forkPage child page s).2.words live f = tableCount s.words live f := by
  have member' := Finset.mem_insert_of_mem (b := child) member
  have fresh := Finset.mem_insert_self child live
  obtain ⟨books1, sets1, -⟩ := lowered_leaf books member' on entry
  have lowered' : tableCount (s.write page.table page.index (lowered page.entry)).words live f =
      tableCount s.words live f := by
    refine tables_of_child (n := 0) outside (by rw [sets1.tables, Nat.add_zero]) ?_
    rw [Nat.add_zero]
    obtain ⟨once, -⟩ := books.table member' on.route
    obtain ⟨-, others⟩ := absent_elsewhere member' on.route.occurs once
    refine tally_congr fun v inside => put_table fun same => ?_
    rw [same, others child fresh fun here => outside (here ▸ member)] at inside
    exact Nat.lt_irrefl 0 inside
  rw [← lowered']
  have mapping := mapPageIn_spec (frameOf page.entry) (childFlags page.entry) books1 fresh on.low
  unfold forkPage
  generalize mapPageIn (s.write page.table page.index (lowered page.entry)) child page.address
    (frameOf page.entry) (childFlags page.entry) = answer at mapping ⊢
  cases mapping with
  | short few books2 builds => exact tables_of_child outside (builds.counts f) (builds.tree f)
  | taken there books2 builds => exact tables_of_child outside (builds.counts f) (builds.tree f)
  | mapped room absent books2 builds route =>
      have sets := LeafSet.write books2 fresh route
        (leafFor (frameOf page.entry) (childFlags page.entry))
      rw [arrived_eq]
      exact (tables_of_child (n := 0) outside (by rw [Nat.add_zero]; exact sets.tables f)
        (by rw [Nat.add_zero]; exact sets.tree f)).trans
        (tables_of_child outside (builds.counts f) (builds.tree f))

theorem forkPages_tables {pages : Pages} (books : Books s managed (insert child live) hand chain)
    (member : root ∈ live) (outside : child ∉ live) (waiting : Waiting s root child pages)
    (copied : (forkPages child pages s).1 = true) (f : Word) :
    tableCount (forkPages child pages s).2.words live f = tableCount s.words live f := by
  induction pages generalizing s chain with
  | nil => rfl
  | cons page rest ih =>
      have here := List.mem_cons_self (a := page) (l := rest)
      have on := waiting.on page here
      have entry := waiting.entry page here
      have kept := forkPage_tables books member outside on entry f
      have step := forkPage_spec books (Finset.mem_insert_of_mem member)
        (Finset.mem_insert_self child live) (fun same => outside (same ▸ member)) on entry
        (waiting.there page here) (waiting.absent page here)
      rw [forkPages_cons entry] at copied ⊢
      generalize forkPage child page s = answer at step kept copied ⊢
      cases step with
      | short text few books1 marks => cases copied
      | @copied s1 room books1 copies ways =>
          refine (ih books1 (waiting.next copies) copied).trans ?_
          rw [share_eq]
          exact kept

theorem fork_tables (books : Books s managed live hand chain) (member : root ∈ live)
    (forked : fork s root = (some child, s')) (f : Word) :
    tableCount s'.words live f = tableCount s.words live f := by
  cases chain with
  | nil =>
      have failed : newSpace s = (none, s) := by
        unfold newSpace
        rw [books.account.allocate_none]
      unfold fork at forked
      rw [failed] at forked
      cases forked
  | cons made rest =>
      obtain ⟨s0, new, books0, facts⟩ := newSpace_made books
      have sound := books0.sound root (Finset.mem_insert_of_mem member)
      have waiting : Waiting s0 root made (userPages s0 root) :=
        ⟨userPages_apart s0 root, fun page inside => (mem_userPages sound inside).1,
          fun page inside => (mem_userPages sound inside).2.1,
          fun page inside => (mem_userPages sound inside).2.2,
          fun page inside => by rw [facts.leaves]; decide⟩
      have kept := forkPages_tables books0 member facts.outside waiting (f := f)
      unfold fork at forked
      rw [new] at forked
      dsimp only at forked
      rcases answer : forkPages made (userPages s0 root) s0 with ⟨_ | _, t⟩
      · rw [answer] at forked
        cases forked
      · rw [answer] at forked kept
        obtain ⟨-, rfl⟩ := Prod.mk.inj forked
        exact (kept rfl).trans (forest_congr fun v there => facts.trees v there)

end Tables

section Accesses

inductive Access where
  | load (address : Word)
  | store (address value : Word)

def Access.address : Access → Word
  | .load address => address
  | .store address _ => address

/-- What it learns of it: the word, unless it faults, and whether a store went through. -/
inductive Answer where
  | loaded (value : Option Word)
  | stored (done : Bool)

def access (s : Paging) (root : Word) : Access → Answer × Paging
  | .load address =>
      match loadIn s root address with
      | some (value, t) => (.loaded (some value), t)
      | none => (.loaded none, s)
  | .store address value =>
      let (done, t) := storeIn s root address value
      (.stored done, t)

def answers (s : Paging) (root : Word) : List Access → List Answer
  | [] => []
  | a :: rest => (access s root a).1 :: answers (access s root a).2 root rest

/-- Two memories in which programs find the same, with frames for `n` more accesses. -/
structure Alike (s t : Paging) (managed live : Finset Word) (n : Nat) : Prop where
  books : ∃ chain, Books s managed live [] chain
  books' : ∃ chain, Books t managed live [] chain
  alone : Alone s live
  alone' : Alone t live
  pages : ∀ r ∈ live, ∀ p, view t r p = view s r p
  frames : n ≤ s.free
  frames' : n ≤ t.free

variable {s t : Paging} {managed live : Finset Word} {root : Word} {n : Nat}

private theorem head_of_free {chain : List Word} (books : Books s managed live [] chain)
    (frames : n + 1 ≤ s.free) : s.head ≠ 0 := by
  intro empty
  have none := books.account.empty_iff.mp empty
  rw [books.account.count, none] at frames
  exact absurd frames (Nat.not_succ_le_zero n)

private theorem access_fault {address : Word} (fault : loadIn s root address = none) :
    access s root (.load address) = (.loaded none, s) := by
  unfold access
  simp only [fault]

private theorem access_load {address value : Word} (loaded : loadIn s root address = some (value, t)) :
    access s root (.load address) = (.loaded (some value), t) := by
  unfold access
  simp only [loaded]

theorem Alike.load (alike : Alike s t managed live (n + 1)) (member : root ∈ live) {address : Word}
    (inside : address < userSpaceEnd) :
    (access t root (.load address)).1 = (access s root (.load address)).1 ∧
      Alike (access s root (.load address)).2 (access t root (.load address)).2 managed live n := by
  obtain ⟨chain, books⟩ := alike.books
  obtain ⟨chain', books'⟩ := alike.books'
  have same : (loadIn t root address).map Prod.fst = (loadIn s root address).map Prod.fst := by
    rw [loadIn_view books member inside, loadIn_view books' member inside, alike.pages root member]
  cases loaded : loadIn s root address with
  | none =>
      rw [loaded, Option.map_none, Option.map_eq_none_iff] at same
      rw [access_fault loaded, access_fault same]
      exact ⟨rfl, ⟨chain, books⟩, ⟨chain', books'⟩, alike.alone, alike.alone', alike.pages,
        Nat.le_of_succ_le alike.frames, Nat.le_of_succ_le alike.frames'⟩
  | some found =>
      obtain ⟨value, s1⟩ := found
      rw [loaded, Option.map_some] at same
      obtain ⟨⟨value', t1⟩, loaded', rfl⟩ := Option.map_eq_some_iff.mp same
      rw [access_load loaded, access_load loaded']
      obtain ⟨books1, alone1, unseen, free⟩ := loadIn_spec books alike.alone member inside loaded
      obtain ⟨books1', alone1', unseen', free'⟩ :=
        loadIn_spec books' alike.alone' member inside loaded'
      refine ⟨rfl, ⟨chain, books1⟩, ⟨chain', books1'⟩, alone1, alone1', fun r live' p => ?_, ?_, ?_⟩
      · rw [unseen r live' p, unseen' r live' p, alike.pages r live' p]
      · exact free.symm ▸ Nat.le_of_succ_le alike.frames
      · exact free'.symm ▸ Nat.le_of_succ_le alike.frames'

theorem Alike.store (alike : Alike s t managed live (n + 1)) (member : root ∈ live) {address : Word}
    (inside : address < userSpaceEnd) (value : Word) :
    (access t root (.store address value)).1 = (access s root (.store address value)).1 ∧
      Alike (access s root (.store address value)).2 (access t root (.store address value)).2
        managed live n := by
  classical
  obtain ⟨chain, books⟩ := alike.books
  obtain ⟨chain', books'⟩ := alike.books'
  obtain ⟨done, stored⟩ := storeIn_spec books alike.alone member inside
    (head_of_free books alike.frames) value
  obtain ⟨done', stored'⟩ := storeIn_spec books' alike.alone' member inside
    (head_of_free books' alike.frames') value
  have same : (storeIn t root address value).1 = (storeIn s root address value).1 := by
    rw [done, done', alike.pages root member]
  refine ⟨congrArg Answer.stored same, stored.books, stored'.books, stored.alone, stored'.alone,
    fun r live' p => ?_, ?_, ?_⟩
  · change view (storeIn t root address value).2 r p = view (storeIn s root address value).2 r p
    rw [stored.pages r live' p, stored'.pages r live' p, same, alike.pages r live' p]
  · have more := stored.frames
    have frames := alike.frames
    change n ≤ (storeIn s root address value).2.free
    omega
  · have more := stored'.frames
    have frames := alike.frames'
    change n ≤ (storeIn t root address value).2.free
    omega

theorem Alike.answers {accesses : List Access} (alike : Alike s t managed live n)
    (member : root ∈ live) (inside : ∀ a ∈ accesses, a.address < userSpaceEnd)
    (few : accesses.length ≤ n) : answers t root accesses = answers s root accesses := by
  induction accesses generalizing s t n with
  | nil => rfl
  | cons a rest ih =>
      obtain ⟨n, rfl⟩ : ∃ m, n = m + 1 := ⟨n - 1, by rw [List.length_cons] at few; omega⟩
      have step : (access t root a).1 = (access s root a).1 ∧
          Alike (access s root a).2 (access t root a).2 managed live n := by
        have here := inside a List.mem_cons_self
        cases a with
        | load address => exact alike.load member here
        | store address value => exact alike.store member here value
      rw [List.length_cons] at few
      unfold FailedForks.answers
      rw [step.1, ih step.2 (fun b later => inside b (List.mem_cons_of_mem a later)) (by omega)]

end Accesses

section Calls

structure Whole where
  kernel : Kernel
  paging : Paging

/-- `fork` of the running task, with its frame at `context` and a block of the heap for the
child's stack. -/
def fork (m : Whole) (stack context : Word) : Word × Whole :=
  match FiveAM.Memory.PageTables.fork m.paging m.paging.cr3 with
  | (none, s) => (Pipes.failure, { m with paging := s })
  | (some root, s) =>
      match forkFrom m.kernel m.kernel.current (rootAt root) stack context with
      | (some child, k) => (BitVec.ofNat 64 child.val, ⟨k, s⟩)
      | (none, k) => (Pipes.failure, ⟨k, destroy s root⟩)

/-- The free frames, the owners of every frame, the tasks and the pipes, what the parent
finds at its pages, and the answers it gets while frames last. -/
structure Unchanged (m m' : Whole) : Prop where
  kernel : m'.kernel = m.kernel
  free : m'.paging.free = m.paging.free
  owners : ∀ frame, m'.paging.shareCount frame = m.paging.shareCount frame
  pages : ∀ p, found m'.paging m.paging.cr3 p = found m.paging m.paging.cr3 p
  /-- A store to a shared page takes a frame: with no more accesses than free frames none fails for
  want of one. -/
  answers : ∀ accesses : List Access, (∀ a ∈ accesses, a.address < userSpaceEnd) →
    accesses.length ≤ m.paging.free →
    answers m'.paging m.paging.cr3 accesses = answers m.paging m.paging.cr3 accesses

/-- Some frames are free, and not enough for the root of the child and its tables. -/
def Short (s : Paging) : Prop :=
  s.free ≠ 0 ∧ s.free < 1 + tablesFor (fun _ => 0) (userPages s s.cr3)

theorem Unchanged.refl (m : Whole) : Unchanged m m :=
  ⟨rfl, rfl, fun _ => rfl, fun _ => rfl, fun _ _ _ => rfl⟩

variable {m : Whole} {s s' : Paging} {managed live : Finset Word} {chain : List Word}
  {root child : Word}

/-- The books and the pages once the child has been destroyed again. -/
structure Restored (s t : Paging) (managed live : Finset Word) (root : Word) : Prop where
  free : t.free = s.free
  owners : ∀ frame, t.shareCount frame = s.shareCount frame
  pages : ∀ p, found t root p = found s root p
  alike : Alike s t managed live s.free

theorem destroyed_restored (books : Books s managed live [] chain) (alone : Alone s live)
    (member : root ∈ live)
    (forked : FiveAM.Memory.PageTables.fork s root = (some child, s')) :
    Restored s (destroy s' child) managed live root := by
  obtain ⟨⟨chain1, books1⟩, inherits⟩ := fork_inherits books member forked
  obtain ⟨freed, books2, frees, trees⟩ := destroy_spec books1 (Finset.mem_insert_self child live)
  rw [Finset.erase_insert inherits.new] at books2 trees
  have leaf : ∀ r ∈ live, ∀ p, leafAt (destroy s' child).words r p = leafAt s.words r p ∨
      has (leafAt s.words r p) present = true ∧
        leafAt (destroy s' child).words r p = lowered (leafAt s.words r p) := by
    intro r live' p
    rw [trees.leaves r live' p]
    by_cases own : r = root
    · subst own
      by_cases there : has (leafAt s.words r p) present = true
      · exact Or.inr ⟨there, (inherits.both p there).1⟩
      · exact Or.inl (inherits.neither p (Bool.eq_false_of_not_eq_true there)).1
    · exact Or.inl (inherits.others r live' own p)
  have shape : ∀ r ∈ live, ∀ p,
      has (leafAt (destroy s' child).words r p) present = has (leafAt s.words r p) present ∧
        frameOf (leafAt (destroy s' child).words r p) = frameOf (leafAt s.words r p) := by
    intro r live' p
    rcases leaf r live' p with same | ⟨-, same⟩
    · rw [same]
      exact ⟨rfl, rfl⟩
    · rw [same]
      exact ⟨present_lowered _, frameOf_lowered _⟩
  have refs : ∀ f, refCount (destroy s' child).words live f = refCount s.words live f := fun f =>
    forest_entries (by simp [names, has, userTree]) fun r live' q => by
      obtain ⟨present', frame⟩ := shape r live' q
      unfold leafAt at present' frame
      unfold names
      rw [present', frame]
  have words : ∀ r ∈ live, ∀ p, has (leafAt s.words r p) present = true →
      (destroy s' child).words (frameOf (leafAt s.words r p)) =
        s.words (frameOf (leafAt s.words r p)) := by
    intro r live' p there
    obtain ⟨present', frame⟩ := shape r live' p
    rw [← present'] at there
    obtain ⟨-, free, -, -⟩ := page_frame books2 live' there
    rw [frame] at free
    rw [present'] at there
    exact (frees.kept _ fun inside => free (List.mem_append_left chain1 inside)).trans
      (inherits.words r live' p there)
  have counts : (freed ++ chain1).Perm chain := by
    refine List.perm_iff_count.mpr fun f => ?_
    have before := books.account.once f
    have after := books2.account.once f
    rw [refs, trees.tables, fork_tables books member forked] at after
    omega
  have free : (destroy s' child).free = s.free := by
    rw [books2.account.count, books.account.count, counts.length_eq]
  have seen : ∀ r ∈ live, ∀ p, view (destroy s' child) r p = view s r p := by
    intro r live' p
    unfold view
    rcases leaf r live' p with same | ⟨there, same⟩
    · rw [same]
      exact viewOf_congr rfl (words r live' p) rfl rfl
    · rw [same, viewOf_lowered]
      exact viewOf_congr rfl (words r live' p) rfl rfl
  have alone' : Alone (destroy s' child) live := by
    intro r live' p there writes r' live'' p' there' same
    have kept : leafAt (destroy s' child).words r p = leafAt s.words r p := by
      refine (leaf r live' p).resolve_right fun low => ?_
      rw [low.2, writable_lowered] at writes
      cases writes
    rw [kept] at there writes same
    rw [(shape r' live'' p').1] at there'
    rw [(shape r' live'' p').2] at same
    exact alone r live' p there writes r' live'' p' there' same
  refine ⟨free, fun f => ?_, fun p => ?_, ⟨chain, books⟩, ⟨_, books2⟩, alone, alone', seen,
    Nat.le_refl _, Nat.le_of_eq free.symm⟩
  · rw [books2.account.owners, books.account.owners, refs]
  · have disk : (destroy s' child).disk = s.disk := frees.disk.trans inherits.disk
    rcases leaf root member p with same | ⟨there, same⟩
    · unfold found contents heldBy
      rw [same, disk]
      by_cases there : has (leafAt s.words root p) present = true
      · rw [words root member p there]
      · rw [if_neg there, if_neg there]
    · rw [found_present there, found_present (by rw [same, present_lowered]; exact there), same,
        frameOf_lowered, user_lowered, grants_lowered, words root member p there]

/-- A fork that fails changes nothing exactly where it is not short of frames for the child's
tables while some are free. -/
theorem failed_fork_iff (books : Books m.paging managed live [] chain) (alone : Alone m.paging live)
    (member : m.paging.cr3 ∈ live) (stack context : Word) :
    ((fork m stack context).1 = Pipes.failure → Unchanged m (fork m stack context).2) ↔
      ¬Short m.paging := by
  have count := books.account.count
  have spec := fork_spec books member
  unfold fork Short
  rcases answer : FiveAM.Memory.PageTables.fork m.paging m.paging.cr3 with ⟨_ | root, s⟩
  · rw [answer] at spec
    cases spec with
    | none empty =>
        refine iff_of_true (fun _ => Unchanged.refl m) fun short => short.1 ?_
        rw [count, empty]
        rfl
    | short first made books0 few books' marks =>
        rw [first, List.length_cons] at count
        refine iff_of_false (fun same => ?_) fun enough => enough ⟨by omega, by omega⟩
        have free := (same rfl).free
        rw [books'.account.count, count] at free
        cases free
  · have forked := answer
    rw [answer] at spec
    cases spec with
    | copied first made books0 room books' copies =>
        rw [first, List.length_cons] at count
        refine iff_of_true (fun failed => ?_) fun short => by omega
        dsimp only at failed ⊢
        rcases slot : freeSlot m.kernel.tasks with _ | id
        · have refused : forkFrom m.kernel m.kernel.current (rootAt root) stack context =
              (none, m.kernel) := by
            unfold forkFrom
            rw [slot]
          rw [refused]
          have restored := destroyed_restored books alone member forked
          exact ⟨rfl, restored.free, restored.owners, restored.pages, fun accesses inside few =>
            restored.alike.answers member inside few⟩
        · have answers : ∀ child : TaskId, BitVec.ofNat 64 child.val ≠ Pipes.failure := by decide
          unfold forkFrom at failed
          rw [slot] at failed
          exact absurd failed (answers id)

instance (s : Paging) : Decidable (Short s) := inferInstanceAs (Decidable (_ ∧ _))

private def frames (count : Nat) : List Word :=
  (List.range count).reverse.map fun n => BitVec.ofNat 64 (0x100000 + 0x1000 * n)

private def onePage : List FiveAM.Memory.EagerCopies.Event :=
  [.create 0x100000, .map 0x100000 0x400000 (user ||| writable) fun _ => 7,
    .load 0x100000 0x400000]

private theorem onePage_orderly (count : Nat)
    (all : ((frames count).all fun f => decide (Framed f)) = true) (once : (frames count).Nodup)
    {k : FiveAM.Memory.FrameOwnership.Machine} (run : runProvided (booted (frames count)) onePage = some k) :
    ∃ managed chain, Books k.paging managed k.live [] chain ∧ Alone k.paging k.live := by
  have usable : Usable (frames count) :=
    ⟨fun f inside => of_decide_eq_true (List.all_eq_true.mp all f inside), once⟩
  have follows := (follows_booted usable).run run
  obtain ⟨chain, books⟩ := follows.books
  exact ⟨_, chain, books, follows.alone⟩

private def crowded : Kernel :=
  { System.started.kernel with tasks := fun _ => { empty with state := .ready } }

private theorem crowded_full : freeSlot crowded.tasks = none := by decide +kernel

private theorem crowded_forkFrom (root : Word) :
    forkFrom crowded crowded.current (rootAt root) 0 0 = (none, crowded) := by
  unfold forkFrom
  rw [crowded_full]

private theorem crowded_fork {s : Paging} {root : Word}
    (copied : (FiveAM.Memory.PageTables.fork s s.cr3).1 = some root) :
    (fork ⟨crowded, s⟩ 0 0).1 = Pipes.failure := by
  rcases answer : FiveAM.Memory.PageTables.fork s s.cr3 with ⟨_ | other, copy⟩
  · rw [answer] at copied
    cases copied
  · unfold fork
    rw [answer]
    dsimp only
    rw [crowded_forkFrom]

/-- Without a slot for the child the copy is taken back. -/
theorem failed_fork_iff_crowded : ∃ m : Whole,
    (fork m 0 0).1 = Pipes.failure ∧ Unchanged m (fork m 0 0).2 := by
  have taken : ((runProvided (booted (frames 10)) onePage).map fun k =>
      (k.live, k.paging.cr3, decide (Short k.paging),
        (FiveAM.Memory.PageTables.fork k.paging k.paging.cr3).1)) =
      some ({0x100000}, 0x100000, false, some 0x105000) := by decide +kernel
  obtain ⟨k, run, shape⟩ := Option.map_eq_some_iff.mp taken
  simp only [Prod.mk.injEq] at shape
  obtain ⟨live, active, enough, copied⟩ := shape
  obtain ⟨managed, chain, books, alone⟩ :=
    onePage_orderly 10 (by decide +kernel) (by decide +kernel) run
  have member : k.paging.cr3 ∈ k.live := by
    rw [live, active]
    exact Finset.mem_singleton_self _
  have failed := crowded_fork copied
  exact ⟨⟨crowded, k.paging⟩, failed,
    (failed_fork_iff (m := ⟨crowded, k.paging⟩) books alone member 0 0).mpr
      (of_decide_eq_false enough) failed⟩

/-- The one frame left becomes the root of a child that then gets no tables, and is lost. -/
theorem frame_lost : ¬∀ (m : Whole) (managed live : Finset Word) (chain : List Word),
    Books m.paging managed live [] chain → Alone m.paging live → m.paging.cr3 ∈ live →
    ∀ stack context, (fork m stack context).1 = Pipes.failure →
      Unchanged m (fork m stack context).2 := by
  intro always
  have taken : ((runProvided (booted (frames 6)) onePage).map fun k =>
      (k.live, k.paging.cr3, k.paging.free,
        (FiveAM.Memory.PageTables.fork k.paging k.paging.cr3).1,
        (FiveAM.Memory.PageTables.fork k.paging k.paging.cr3).2.free)) =
      some ({0x100000}, 0x100000, 1, none, 0) := by decide +kernel
  obtain ⟨k, run, shape⟩ := Option.map_eq_some_iff.mp taken
  simp only [Prod.mk.injEq] at shape
  obtain ⟨live, active, one, nothing, zero⟩ := shape
  obtain ⟨managed, chain, books, alone⟩ :=
    onePage_orderly 6 (by decide +kernel) (by decide +kernel) run
  have answer : FiveAM.Memory.PageTables.fork k.paging k.paging.cr3 =
      (none, (FiveAM.Memory.PageTables.fork k.paging k.paging.cr3).2) := Prod.ext nothing rfl
  have result : fork ⟨System.started.kernel, k.paging⟩ 0 0 = (Pipes.failure,
      ⟨System.started.kernel, (FiveAM.Memory.PageTables.fork k.paging k.paging.cr3).2⟩) := by
    unfold fork
    rw [answer]
  have member : k.paging.cr3 ∈ k.live := by
    rw [live, active]
    exact Finset.mem_singleton_self _
  have same := always ⟨System.started.kernel, k.paging⟩ managed k.live chain books alone member 0 0
  rw [result] at same
  have free := (same rfl).free
  rw [zero, one] at free
  cases free

end Calls

end FiveAM.Process.FailedForks
