/- GID: FiveAM/Lib/FifoQueue
   layer: library
   digest: First-in first-out replacement with a fixed number of frames, on any reference string. -/

import Mathlib.Data.List.Basic

set_option autoImplicit false
set_option relaxedAutoImplicit false

namespace FiveAM.Lib.FifoQueue

variable {α : Type*} {frames : Nat} {queue : List α} {x y : α}

/-- Room for one more page: the oldest goes where every frame is taken. -/
def shorten (frames : Nat) (queue : List α) : List α :=
  if frames ≤ queue.length then queue.tail else queue

theorem shorten_full (full : frames ≤ queue.length) : shorten frames queue = queue.tail :=
  if_pos full

theorem shorten_room (room : queue.length < frames) : shorten frames queue = queue :=
  if_neg (Nat.not_le.mpr room)

theorem mem_of_shorten (there : y ∈ shorten frames queue) : y ∈ queue := by
  unfold shorten at there
  split_ifs at there
  · exact List.mem_of_mem_tail there
  · exact there

theorem shorten_length (positive : 0 < frames) (few : queue.length ≤ frames) :
    (shorten frames queue).length < frames := by
  rcases Nat.lt_or_ge queue.length frames with room | full
  · rw [shorten_room room]
    exact room
  · rw [shorten_full full, List.length_tail]
    omega

variable [DecidableEq α]

/-- One reference: the pages in memory, the oldest first. -/
def refer (frames : Nat) (queue : List α) (x : α) : List α :=
  if x ∈ queue then queue else shorten frames queue ++ [x]

/-- How many references of a string find their page missing. -/
def faults (frames : Nat) : List α → List α → Nat
  | _, [] => 0
  | queue, x :: rest => (if x ∈ queue then 0 else 1) + faults frames (refer frames queue x) rest

end FiveAM.Lib.FifoQueue
