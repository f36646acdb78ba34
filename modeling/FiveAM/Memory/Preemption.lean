/- GID: FiveAM/Memory/Preemption
   source: kernel/src/memory.rs, kernel/src/syscall.rs
   digest: The frame allocator taken load by load, with other tasks in between. -/

import FiveAM.Lib.Interleaving
import FiveAM.Memory.Boot

set_option autoImplicit false
set_option relaxedAutoImplicit false

namespace FiveAM.Memory.Preemption

open FiveAM.Process.TaskTable (Word)
open FiveAM.Memory.Entries FiveAM.Memory.Frames FiveAM.Memory.Ownership FiveAM.Memory.Boot
open FiveAM.Lib.Runs FiveAM.Lib.Interleaving

/-- Where a task is in `allocate` or `deallocate`, with what it has loaded. -/
inductive Place where
  | idle
  | testing
  | taking
  | following (frame : Word)
  | advancing (frame next : Word)
  | counting (frame : Word)
  | uncounting (frame : Word) (free : Nat)
  | reading (frame : Word)
  | linking (frame head : Word)
  | publishing (frame : Word)
  | tallying
  | recounting (free : Nat)
  deriving DecidableEq

/-- What a task does next: go on, call one of the two functions, or use a frame it has. -/
inductive Ask where
  | go
  | allocate
  | deallocate (frame : Word)
  | scribble (frame : Word) (i : Index) (w : Word)

/-- The allocator and the frames, with those that have been handed out. -/
structure Shared where
  paging : Paging
  owned : List Word

/-- The next load or store of `allocate` and `deallocate`. -/
def next (s : Shared) : Place → Ask → Option (Shared × Place)
  | .idle, .allocate => some (s, .testing)
  | .idle, .deallocate frame =>
      if frame ∈ s.owned then some ({ s with owned := s.owned.erase frame }, .reading frame)
      else none
  | .idle, .scribble frame i w =>
      if frame ∈ s.owned then some ({ s with paging := s.paging.write frame i w }, .idle)
      else none
  | .testing, .go => some (s, if s.paging.head = 0 then .idle else .taking)
  | .taking, .go => some (s, .following s.paging.head)
  | .following frame, .go => some (s, .advancing frame (s.paging.words frame 0))
  | .advancing frame next, .go =>
      some ({ s with paging := { s.paging with head := next } }, .counting frame)
  | .counting frame, .go => some (s, .uncounting frame s.paging.free)
  | .uncounting frame free, .go =>
      some ({ paging := { s.paging with free := free - 1 }, owned := frame :: s.owned }, .idle)
  | .reading frame, .go => some (s, .linking frame s.paging.head)
  | .linking frame head, .go =>
      some ({ s with paging := s.paging.write frame 0 head }, .publishing frame)
  | .publishing frame, .go =>
      some ({ s with paging := { s.paging with head := frame } }, .tallying)
  | .tallying, .go => some (s, .recounting s.paging.free)
  | .recounting free, .go =>
      some ({ s with paging := { s.paging with free := free + 1 } }, .idle)
  | _, _ => none

def inside : Place → Bool
  | .idle => false
  | _ => true

def Booted {ι : Type} (m : Machine ι Shared Place) : Prop :=
  (∀ t, m.places t = .idle) ∧
    ∃ frames, frames.Nodup ∧ (∀ f ∈ frames, Framed f) ∧ m.shared = ⟨init statics frames, []⟩

/-- No frame is handed out twice or while it is free, and at rest the free ones are
counted. -/
def Exact {ι : Type} (m : Machine ι Shared Place) : Prop :=
  m.shared.owned.Nodup ∧
    ∃ chain, Chain m.shared.paging.words m.shared.paging.head chain ∧
      (∀ f ∈ m.shared.owned, f ∉ chain) ∧
      ((∀ t, m.places t = .idle) → m.shared.paging.free = chain.length)

theorem next_allocate (s : Shared) (some : s.paging.head ≠ 0) :
    runOne next (s, .idle) [.allocate, .go, .go, .go, .go, .go, .go] =
        Option.some (⟨s.paging.allocate.2, s.paging.head :: s.owned⟩, .idle) ∧
      s.paging.allocate.1 = Option.some s.paging.head := by
  simp only [runOne, next, Option.bind_some, if_neg some, Paging.allocate, and_self]

theorem next_allocate_none (s : Shared) (empty : s.paging.head = 0) :
    runOne next (s, .idle) [.allocate, .go] = some (s, .idle) ∧
      s.paging.allocate = (none, s.paging) := by
  simp only [runOne, next, Option.bind_some, if_pos empty, Paging.allocate, and_self]

theorem next_deallocate (s : Shared) {frame : Word} (mine : frame ∈ s.owned) :
    runOne next (s, .idle) [.deallocate frame, .go, .go, .go, .go, .go] =
      some (⟨s.paging.deallocate frame, s.owned.erase frame⟩, .idle) := by
  simp only [runOne, next, Option.bind_some, if_pos mine, Paging.deallocate, Paging.write]

/-- The free list, the frame a call has in its hands, and the frames handed out: each
once, and so many counted as free. -/
structure Listed (s : Shared) (chain hand : List Word) (free : Nat) : Prop where
  linked : Chain s.paging.words s.paging.head chain
  once : (hand ++ chain ++ s.owned).Nodup
  nonzero : ∀ f ∈ hand ++ s.owned, f ≠ 0
  count : s.paging.free = free

def Rest (s : Shared) : Prop := ∃ chain, Listed s chain [] chain.length

/-- What a task that has the allocator to itself finds at each place. -/
def Within (s : Shared) : Place → Prop
  | .idle => Rest s
  | .testing => Rest s
  | .taking => ∃ f chain, Listed s (f :: chain) [] (chain.length + 1)
  | .following f => ∃ chain, Listed s (f :: chain) [] (chain.length + 1)
  | .advancing f after => ∃ chain, Listed s (f :: chain) [] (chain.length + 1) ∧
      after = s.paging.words f 0
  | .counting f => ∃ chain, Listed s chain [f] (chain.length + 1)
  | .uncounting f free => ∃ chain, Listed s chain [f] (chain.length + 1) ∧ free = s.paging.free
  | .reading f => ∃ chain, Listed s chain [f] chain.length
  | .linking f head => ∃ chain, Listed s chain [f] chain.length ∧ head = s.paging.head
  | .publishing f => ∃ chain, Listed s chain [f] chain.length ∧
      s.paging.words f 0 = s.paging.head
  | .tallying => ∃ f chain, Listed s (f :: chain) [] chain.length
  | .recounting free => ∃ f chain, Listed s (f :: chain) [] chain.length ∧ free = s.paging.free

theorem Listed.write {s : Shared} {chain hand : List Word} {free : Nat} {f : Word}
    (listed : Listed s chain hand free) (off : f ∉ chain) (i : Index) (w : Word) :
    Listed { s with paging := s.paging.write f i w } chain hand free := by
  refine ⟨listed.linked.congr fun g member => ?_, listed.once, listed.nonzero, listed.count⟩
  have apart : g ≠ f := fun same => off (same ▸ member)
  exact Function.update_of_ne apart _ _

theorem held_iff (s : Shared) (p : Place) : Held inside Rest Within s p ↔ Within s p := by
  cases p <;> rfl

theorem next_kept {s s' : Shared} {p p' : Place} {a : Ask} (within : Within s p)
    (taken : next s p a = some (s', p')) : Within s' p' := by
  cases p <;> cases a <;> simp only [next, reduceCtorEq] at taken
  case idle.allocate =>
    obtain ⟨rfl, rfl⟩ := Prod.mk.inj (Option.some.inj taken)
    exact within
  case idle.deallocate frame =>
    split_ifs at taken with mine
    obtain ⟨rfl, rfl⟩ := Prod.mk.inj (Option.some.inj taken)
    obtain ⟨chain, linked, once, nonzero, count⟩ := within
    have perm : (chain ++ s.owned).Perm ([frame] ++ chain ++ s.owned.erase frame) := by
      refine (List.Perm.append_left chain (List.perm_cons_erase mine)).trans ?_
      exact List.perm_middle
    refine ⟨chain, linked, perm.nodup_iff.mp once, fun f member => ?_, count⟩
    rcases List.mem_cons.mp member with rfl | other
    · exact nonzero _ mine
    · exact nonzero f (List.mem_of_mem_erase other)
  case idle.scribble frame i w =>
    split_ifs at taken with mine
    obtain ⟨rfl, rfl⟩ := Prod.mk.inj (Option.some.inj taken)
    obtain ⟨chain, listed⟩ := within
    refine ⟨chain, listed.write (fun member => ?_) i w⟩
    exact (List.nodup_append.mp listed.once).2.2 frame member frame mine rfl
  case testing.go =>
    obtain ⟨rfl, rfl⟩ := Prod.mk.inj (Option.some.inj taken)
    split_ifs with empty
    · exact within
    · obtain ⟨chain, listed⟩ := within
      cases chain with
      | nil => exact absurd listed.linked empty
      | cons f rest => exact ⟨f, rest, listed⟩
  case taking.go =>
    obtain ⟨rfl, rfl⟩ := Prod.mk.inj (Option.some.inj taken)
    obtain ⟨f, chain, listed⟩ := within
    have here := listed.linked.1
    exact ⟨chain, by rw [here]; exact listed⟩
  case following.go frame =>
    obtain ⟨rfl, rfl⟩ := Prod.mk.inj (Option.some.inj taken)
    obtain ⟨chain, listed⟩ := within
    exact ⟨chain, listed, rfl⟩
  case advancing.go frame after =>
    obtain ⟨rfl, rfl⟩ := Prod.mk.inj (Option.some.inj taken)
    obtain ⟨chain, ⟨⟨-, nonzero, later⟩, once, others, count⟩, rfl⟩ := within
    refine ⟨chain, later, once, fun f member => ?_, count⟩
    rcases List.mem_cons.mp member with rfl | owned
    · exact nonzero
    · exact others f owned
  case counting.go frame =>
    obtain ⟨rfl, rfl⟩ := Prod.mk.inj (Option.some.inj taken)
    obtain ⟨chain, listed⟩ := within
    exact ⟨chain, listed, rfl⟩
  case uncounting.go frame free =>
    obtain ⟨rfl, rfl⟩ := Prod.mk.inj (Option.some.inj taken)
    obtain ⟨chain, ⟨linked, once, nonzero, count⟩, rfl⟩ := within
    refine ⟨chain, linked, ?_, nonzero, ?_⟩
    · have perm : (chain ++ frame :: s.owned).Perm ([frame] ++ chain ++ s.owned) :=
        List.perm_middle
      exact perm.nodup_iff.mpr once
    · simp only [count, Nat.add_sub_cancel]
  case reading.go frame =>
    obtain ⟨rfl, rfl⟩ := Prod.mk.inj (Option.some.inj taken)
    obtain ⟨chain, listed⟩ := within
    exact ⟨chain, listed, rfl⟩
  case linking.go frame head =>
    obtain ⟨rfl, rfl⟩ := Prod.mk.inj (Option.some.inj taken)
    obtain ⟨chain, listed, rfl⟩ := within
    have off : frame ∉ chain := by
      have once := listed.once
      rw [List.append_assoc, List.singleton_append, List.nodup_cons] at once
      exact fun member => once.1 (List.mem_append_left _ member)
    refine ⟨chain, listed.write off 0 _, ?_⟩
    simp [Paging.write]
  case publishing.go frame =>
    obtain ⟨rfl, rfl⟩ := Prod.mk.inj (Option.some.inj taken)
    obtain ⟨chain, ⟨linked, once, nonzero, count⟩, link⟩ := within
    refine ⟨frame, chain, ⟨rfl, nonzero frame List.mem_cons_self, ?_⟩, once,
      fun f member => nonzero f (List.mem_cons_of_mem _ member), count⟩
    simp only [link]
    exact linked
  case tallying.go =>
    obtain ⟨rfl, rfl⟩ := Prod.mk.inj (Option.some.inj taken)
    obtain ⟨f, chain, listed⟩ := within
    exact ⟨f, chain, listed, rfl⟩
  case recounting.go free =>
    obtain ⟨rfl, rfl⟩ := Prod.mk.inj (Option.some.inj taken)
    obtain ⟨f, chain, ⟨linked, once, nonzero, count⟩, rfl⟩ := within
    exact ⟨f :: chain, linked, once, nonzero, by simp only [count, List.length_cons]⟩

theorem within_listed {s : Shared} {p : Place} (within : Within s p) :
    ∃ chain hand free, Listed s chain hand free := by
  cases p <;> simp only [Within, Rest] at within
  case taking => obtain ⟨f, chain, listed⟩ := within; exact ⟨_, _, _, listed⟩
  case tallying => obtain ⟨f, chain, listed⟩ := within; exact ⟨_, _, _, listed⟩
  case recounting => obtain ⟨f, chain, listed, -⟩ := within; exact ⟨_, _, _, listed⟩
  all_goals first
    | (obtain ⟨chain, listed, -⟩ := within; exact ⟨_, _, _, listed⟩)
    | (obtain ⟨chain, listed⟩ := within; exact ⟨_, _, _, listed⟩)

private theorem listed_apart {s : Shared} {chain hand : List Word} {free : Nat}
    (listed : Listed s chain hand free) :
    s.owned.Nodup ∧ ∀ f ∈ s.owned, f ∉ chain := by
  obtain ⟨-, owned, apart⟩ := List.nodup_append.mp listed.once
  exact ⟨owned, fun f mine free => apart f (List.mem_append_right _ free) f mine rfl⟩

/-- As long as no tick switches tasks inside the allocator, no frame is handed out twice. -/
theorem no_frame_twice {ι : Type} [DecidableEq ι] {m : Machine ι Shared Place}
    (reached : Reached (step next) Booted (Alone inside) m) : Exact m := by
  have kept : Kept inside Rest Within m := by
    refine alone_kept (fun s p a s' p' held (_ : True) taken => ?_)
      (fun m booted => ?_) (fun m e alone => ⟨alone, trivial⟩) reached
    · exact (held_iff s' p').mpr (next_kept ((held_iff s p).mp held) taken)
    · obtain ⟨idle, frames, once, framed, begun⟩ := booted
      refine ⟨fun t => by rw [idle t]; rfl, frames.reverse, ?_⟩
      have account := (init_books framed once).account
      rw [begun]
      refine ⟨account.linked, ?_, fun f member => absurd member List.not_mem_nil, account.count⟩
      simpa using once
  rcases kept with ⟨t, here, within, -⟩ | ⟨-, chain, listed⟩
  · obtain ⟨chain, hand, free, listed⟩ := within_listed within
    obtain ⟨owned, apart⟩ := listed_apart listed
    refine ⟨owned, chain, listed.linked, apart, fun idle => ?_⟩
    rw [idle t] at here
    exact absurd here Bool.noConfusion
  · obtain ⟨owned, apart⟩ := listed_apart listed
    exact ⟨owned, chain, listed.linked, apart, fun _ => listed.count⟩

/-- Two free frames and tasks that have done nothing yet. -/
def twoFrames (ι : Type) : Machine ι Shared Place :=
  ⟨⟨init statics [0x100000, 0x101000], []⟩, fun _ => .idle⟩

theorem twoFrames_booted (ι : Type) : Booted (twoFrames ι) := by
  refine ⟨fun _ => rfl, [0x100000, 0x101000], by decide, fun f member => ?_, rfl⟩
  simp only [List.mem_cons, List.not_mem_nil, or_false] at member
  rcases member with rfl | rfl
  · exact ⟨by decide, by decide⟩
  · exact ⟨by decide, by decide⟩

/-- Two tasks take a frame each, the first gives its own back, and the second gets that one too:
call after call, with a switch between any two. -/
def inTurn : List (Fin 2 × Ask) :=
  let own (t : Fin 2) (call : Ask) (more : Nat) : List (Fin 2 × Ask) :=
    (t, call) :: List.replicate more (t, .go)
  own 0 .allocate 6 ++ own 1 .allocate 6 ++ own 0 (.deallocate 0x101000) 5 ++ own 1 .allocate 6

theorem no_frame_twice_inTurn : ∃ m, runAll (step next) (twoFrames (Fin 2)) inTurn = some m ∧
    m.shared.owned = [0x101000, 0x100000] ∧ Exact m := by
  have run : (runAll (fun m e => if Alone inside m e then step next m e else none)
      (twoFrames (Fin 2)) inTurn).any (fun m => m.shared.owned = [0x101000, 0x100000]) = true := by
    decide +kernel
  obtain ⟨m, taken, owned⟩ := (Option.any_eq_true ..).mp run
  exact ⟨m, runAll_of_guarded taken, of_decide_eq_true owned,
    no_frame_twice (Reached.runGuarded (.start (twoFrames_booted (Fin 2))) taken)⟩

/-- A tick between the load of the head and the store of the next one: the other task
takes the same frame. -/
theorem frame_handed_out_twice :
    ∃ m : Machine (Fin 2) Shared Place,
      Reached (step next) Booted (fun _ _ => True) m ∧ ¬Exact m := by
  have run : (runAll (step next) (twoFrames (Fin 2))
      ([(0, .allocate), (0, .go), (0, .go), (1, .allocate)] ++ List.replicate 6 (1, .go) ++
        List.replicate 4 (0, .go))).any (fun m => decide (¬m.shared.owned.Nodup)) = true := by
    decide +kernel
  obtain ⟨m, reached, twice⟩ := Reached.freely Booted (twoFrames_booted (Fin 2)) run
  exact ⟨m, reached, fun exact => of_decide_eq_true twice exact.1⟩

end FiveAM.Memory.Preemption
