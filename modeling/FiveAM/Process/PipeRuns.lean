/- GID: FiveAM/Process/PipeRuns
   source: kernel/src/pipe.rs, kernel/src/task.rs
   digest: Any number of tasks on one pipe: the stream is kept and no wakeup is lost. -/

import FiveAM.Process.Pipes
import FiveAM.Process.Threads
import Mathlib.Algebra.Group.Fin.Basic

set_option autoImplicit false
set_option relaxedAutoImplicit false

namespace FiveAM.Process.PipeRuns

open FiveAM.Process.TaskTable FiveAM.Process.Machine FiveAM.Process.Pipes
open FiveAM.Process.Threads FiveAM.Lib.Runs

/-- What a `read` was given room for and took, and the pipe as its last critical section
found it. -/
structure ReadCall where
  room : Nat
  bytes : List (BitVec 8)
  seen : Pipe

/-- What a `write` was given and how much of it went in, and the pipe as its last
critical section found it. -/
structure WriteCall (n : Nat) where
  writer : Fin n
  data : List (BitVec 8)
  written : Nat
  seen : Pipe

/-- The pipe, with what went in and from whom, and the calls whose answer is known. -/
structure Shared (n : Nat) where
  pipe : Pipe
  put : List (Fin n × BitVec 8)
  reads : List ReadCall
  writes : List (WriteCall n)

inductive Place where
  | outside
  | reading (room : Nat)
  | readWaiting (room : Nat)
  | readWaking
  | writing (data : List (BitVec 8)) (written : Nat)
  | fullWaking (data : List (BitVec 8)) (written : Nat)
  | writeWaiting (data : List (BitVec 8)) (written : Nat)
  | doneWaking
  | addingReader
  | addingWriter
  | closingReader
  | closedReader
  | closingWriter
  | closedWriter

variable {n : Nat}

/-- One pass through the loop of `read`. -/
def readPass (room : Nat) (s : Shared n) : Shared n × Place :=
  match readOnce s.pipe room with
  | (none, pipe) => ({ s with pipe := pipe }, .readWaiting room)
  | (some bytes, pipe) =>
      ({ s with pipe := pipe, reads := s.reads ++ [⟨room, bytes, s.pipe⟩] },
        if 0 < bytes.length then .readWaking else .outside)

/-- The way out of `write`: readers are told if anything went in. -/
def writeReturn (t : Fin n) (data : List (BitVec 8)) (written : Nat) (s : Shared n) :
    Shared n × Place :=
  ({ s with writes := s.writes ++ [⟨t, data, written, s.pipe⟩] },
    if 0 < written then .doneWaking else .outside)

/-- One pass through the loop of `write`. -/
def writePass (t : Fin n) (data : List (BitVec 8)) (written : Nat) (s : Shared n) :
    Shared n × Place :=
  if written < data.length then
    match writeOnce s.pipe (data.drop written) with
    | (none, _) => writeReturn t data written s
    | (some 0, pipe) => ({ s with pipe := pipe }, .fullWaking data written)
    | (some count, pipe) =>
        ({ s with
            pipe := pipe
            put := s.put ++ ((data.drop written).take count).map fun byte => (t, byte) },
          .writing data (written + count))
  else writeReturn t data written s

/-- The critical section of `close_reader`. -/
def dropReader (pipe : Pipe) : Pipe :=
  let pipe := { pipe with readers := pipe.readers - 1 }
  if pipe.readers = 0 ∧ pipe.writers = 0 then { pipe with used := false } else pipe

/-- The critical section of `close_writer`. -/
def dropWriter (pipe : Pipe) : Pipe :=
  let pipe := { pipe with writers := pipe.writers - 1 }
  if pipe.readers = 0 ∧ pipe.writers = 0 then { pipe with used := false } else pipe

def readTest (room : Nat) (s : Shared n) : Option (Shared n × Place) :=
  if 0 < s.pipe.len ∨ s.pipe.writers = 0 then some (s, .reading room) else none

def writeTest (data : List (BitVec 8)) (written : Nat) (s : Shared n) :
    Option (Shared n × Place) :=
  if s.pipe.len < capacity ∨ s.pipe.readers = 0 then some (s, .writing data written) else none

def action (id : PipeId) (t : Fin n) : Place → Action (Shared n) Place
  | .outside => .outside
  | .reading room => .critical (readPass room)
  | .readWaiting room => .blockUntil (readableChannel id) (readTest room)
  | .readWaking => .wakeAll (writableChannel id) false .outside
  | .writing data written => .critical (writePass t data written)
  | .fullWaking data written => .wakeAll (readableChannel id) false (.writeWaiting data written)
  | .writeWaiting data written => .blockUntil (writableChannel id) (writeTest data written)
  | .doneWaking => .wakeAll (readableChannel id) false .outside
  | .addingReader => .critical fun s =>
      ({ s with pipe := { s.pipe with readers := s.pipe.readers + 1 } }, .outside)
  | .addingWriter => .critical fun s =>
      ({ s with pipe := { s.pipe with writers := s.pipe.writers + 1 } }, .outside)
  | .closingReader => .critical fun s => ({ s with pipe := dropReader s.pipe }, .closedReader)
  | .closedReader => .wakeAll (writableChannel id) false .outside
  | .closingWriter => .critical fun s => ({ s with pipe := dropWriter s.pipe }, .closedWriter)
  | .closedWriter => .wakeAll (readableChannel id) false .outside

/-- Any task may call into the pipe at any time. -/
def enters : Place → Place → Bool
  | .outside, .reading _ => true
  | .outside, .writing _ written => decide (written = 0)
  | .outside, .addingReader | .outside, .addingWriter => true
  | .outside, .closingReader | .outside, .closingWriter => true
  | _, _ => false

def piping (n : Nat) (id : PipeId) : Program n (Shared n) Place where
  action := action id
  enters := enters
  channels := [readableChannel id, writableChannel id]

/-- A pipe just made, with one reader and one writer. -/
def opened (n : Nat) : Shared n :=
  ⟨{ Pipe.empty with used := true, readers := 1, writers := 1 }, [], [], []⟩

def Opened (id : PipeId) (m : Machine n (Shared n) Place) : Prop :=
  m.shared = opened n ∧ ∀ t, (m.threads t).place = .outside ∧
    (m.threads t).state ≠ asleepOn (readableChannel id) ∧
    (m.threads t).state ≠ asleepOn (writableChannel id)

theorem closeReader_eq (k : Kernel) (id : PipeId) : closeReader k id =
    (setPipe k id (dropReader (k.pipes id))).wakeAll (writableChannel id) := rfl

theorem closeWriter_eq (k : Kernel) (id : PipeId) : closeWriter k id =
    (setPipe k id (dropWriter (k.pipes id))).wakeAll (readableChannel id) := rfl

def contents (pipe : Pipe) : List (BitVec 8) :=
  (List.range pipe.len).map fun i => pipe.buffer (pipe.tail + Fin.ofNat capacity i)

private theorem ofNat_succ (i : Nat) :
    (1 : Fin capacity) + Fin.ofNat capacity i = Fin.ofNat capacity (i + 1) := by
  ext
  simp [Fin.val_add, Fin.ofNat, Nat.add_comm]

private theorem ofNat_add (i j : Nat) :
    Fin.ofNat capacity i + Fin.ofNat capacity j = Fin.ofNat capacity (i + j) := by
  ext
  simp [Fin.val_add, Fin.ofNat]

theorem popBytes_eq (pipe : Pipe) (count : Nat) : popBytes pipe count =
    ((List.range count).map fun i => pipe.buffer (pipe.tail + Fin.ofNat capacity i),
      { pipe with tail := pipe.tail + Fin.ofNat capacity count }) := by
  induction count generalizing pipe with
  | zero =>
      have still : pipe.tail + Fin.ofNat capacity 0 = pipe.tail := by
        rw [show Fin.ofNat capacity 0 = 0 from rfl, add_zero]
      simp only [popBytes, List.range_zero, List.map_nil, still]
  | succ count ih =>
      simp only [popBytes, ih, List.range_succ_eq_map, List.map_cons, List.map_map,
        add_assoc, ofNat_succ]
      congr 1
      · congr 1
        rw [show Fin.ofNat capacity 0 = 0 from rfl, add_zero]

private theorem ofNat_inj {i j : Nat} (low : i < capacity) (high : j < capacity)
    (same : Fin.ofNat capacity i = Fin.ofNat capacity j) : i = j := by
  have values := congrArg Fin.val same
  simpa [Fin.ofNat, Nat.mod_eq_of_lt low, Nat.mod_eq_of_lt high] using values

theorem pushBytes_spec (data : List (BitVec 8)) (pipe : Pipe) (fits : data.length ≤ capacity) :
    (∃ buffer, pushBytes pipe data =
      { pipe with buffer := buffer, head := pipe.head + Fin.ofNat capacity data.length }) ∧
    (∀ i (inside : i < data.length),
      (pushBytes pipe data).buffer (pipe.head + Fin.ofNat capacity i) = data[i]) ∧
    ∀ x, (∀ i < data.length, x ≠ pipe.head + Fin.ofNat capacity i) →
      (pushBytes pipe data).buffer x = pipe.buffer x := by
  induction data generalizing pipe with
  | nil =>
      refine ⟨⟨pipe.buffer, ?_⟩, fun i inside => absurd inside (Nat.not_lt_zero i), fun _ _ => rfl⟩
      have still : pipe.head + Fin.ofNat capacity ([] : List (BitVec 8)).length = pipe.head := by
        rw [List.length_nil, show Fin.ofNat capacity 0 = 0 from rfl, add_zero]
      rw [still]
      rfl
  | cons byte rest ih =>
      have room : rest.length + 1 ≤ capacity := fits
      obtain ⟨⟨buffer, shape⟩, stored, kept⟩ := ih
        { pipe with buffer := Function.update pipe.buffer pipe.head byte, head := pipe.head + 1 }
        (Nat.le_of_succ_le room)
      have next : ∀ i, pipe.head + 1 + Fin.ofNat capacity i =
          pipe.head + Fin.ofNat capacity (i + 1) := fun i => by rw [add_assoc, ofNat_succ]
      have first : pipe.head + Fin.ofNat capacity 0 = pipe.head := by
        rw [show Fin.ofNat capacity 0 = 0 from rfl, add_zero]
      simp only [next] at stored kept
      refine ⟨⟨buffer, ?_⟩, fun i inside => ?_, fun x apart => ?_⟩
      · rw [pushBytes, shape]
        simp only [next, List.length_cons]
      · rw [pushBytes]
        cases i with
        | zero =>
            rw [first, kept pipe.head fun i inRest same => ?_]
            · simp
            · have zero := ofNat_inj (i := 0) (j := i + 1) (by decide) (by omega)
                (add_left_cancel (first.trans same))
              omega
        | succ i =>
            rw [stored i (Nat.lt_of_succ_lt_succ inside)]
            rfl
      · rw [pushBytes, kept x fun i inRest => apart (i + 1) (Nat.succ_lt_succ inRest)]
        have other : x ≠ pipe.head := fun same =>
          apart 0 (Nat.succ_pos _) (same.trans first.symm)
        exact Function.update_of_ne other _ _

/-- The head is as far past the tail as there are bytes, and there are at most as many
as fit. -/
structure Ring (pipe : Pipe) : Prop where
  head : pipe.head = pipe.tail + Fin.ofNat capacity pipe.len
  fits : pipe.len ≤ capacity

theorem push_contents {pipe : Pipe} (ring : Ring pipe) (chunk : List (BitVec 8))
    (fits : pipe.len + chunk.length ≤ capacity) :
    let after := { pushBytes pipe chunk with len := (pushBytes pipe chunk).len + chunk.length }
    Ring after ∧ contents after = contents pipe ++ chunk := by
  obtain ⟨⟨buffer, shape⟩, stored, kept⟩ := pushBytes_spec chunk pipe (by omega)
  have buffers : (pushBytes pipe chunk).buffer = buffer := by rw [shape]
  rw [buffers] at stored kept
  simp only [shape]
  refine ⟨⟨?_, fits⟩, ?_⟩
  · simp only [ring.head, add_assoc, ofNat_add]
  · simp only [contents, List.range_add, List.map_append, List.map_map]
    congr 1
    · refine List.map_congr_left fun i inside => ?_
      have low := List.mem_range.mp inside
      refine kept _ fun j inChunk same => ?_
      rw [ring.head, add_assoc, ofNat_add] at same
      have equal := ofNat_inj (by omega) (by omega) (add_left_cancel same)
      omega
    · refine List.ext_getElem (by simp) fun i low high => ?_
      rw [List.getElem_map, List.getElem_range, Function.comp_apply, ← ofNat_add, ← add_assoc,
        ← ring.head]
      exact stored i high

theorem pop_contents {pipe : Pipe} (ring : Ring pipe) {count : Nat} (enough : count ≤ pipe.len) :
    let after := { (popBytes pipe count).2 with len := (popBytes pipe count).2.len - count }
    Ring after ∧ (popBytes pipe count).1 ++ contents after = contents pipe := by
  simp only [popBytes_eq]
  refine ⟨⟨?_, (Nat.sub_le _ _).trans ring.fits⟩, ?_⟩
  · simp only [add_assoc, ofNat_add, Nat.add_sub_cancel' enough]
    exact ring.head
  · simp only [contents, add_assoc, ofNat_add]
    conv_rhs => rw [← Nat.add_sub_cancel' enough, List.range_add, List.map_append, List.map_map]
    rfl

/-- The pipe after `count` bytes have been taken out. -/
def popped (pipe : Pipe) (count : Nat) : Pipe :=
  { (popBytes pipe count).2 with len := (popBytes pipe count).2.len - count }

def pushed (pipe : Pipe) (chunk : List (BitVec 8)) : Pipe :=
  { pushBytes pipe chunk with len := (pushBytes pipe chunk).len + chunk.length }

theorem popped_counts (pipe : Pipe) (count : Nat) : (popped pipe count).len = pipe.len - count ∧
    (popped pipe count).readers = pipe.readers ∧ (popped pipe count).writers = pipe.writers := by
  simp [popped, popBytes_eq]

theorem readPass_cases (room : Nat) (s : Shared n) :
    (readPass room s = (s, .readWaiting room) ∧ s.pipe.len = 0 ∧ s.pipe.writers ≠ 0) ∨
    (readPass room s = ({ s with reads := s.reads ++ [⟨room, [], s.pipe⟩] }, .outside) ∧
      s.pipe.len = 0 ∧ s.pipe.writers = 0) ∨
    (∃ count, count = min s.pipe.len room ∧ 0 < s.pipe.len ∧
      readPass room s = ({ s with
          pipe := popped s.pipe count
          reads := s.reads ++ [⟨room, (popBytes s.pipe count).1, s.pipe⟩] },
        if 0 < count then .readWaking else .outside)) := by
  unfold readPass readOnce
  by_cases empty : s.pipe.len = 0
  · by_cases ended : s.pipe.writers = 0
    · exact Or.inr (Or.inl ⟨by simp [empty, ended], empty, ended⟩)
    · exact Or.inl ⟨by simp [empty, ended], empty, ended⟩
  · refine Or.inr (Or.inr ⟨_, rfl, Nat.pos_of_ne_zero empty, ?_⟩)
    have taken : (popBytes s.pipe (min s.pipe.len room)).1.length = min s.pipe.len room := by
      simp [popBytes_eq]
    simp only [if_neg empty, taken]
    rfl

theorem writePass_cases (t : Fin n) (data : List (BitVec 8)) (written : Nat) (s : Shared n) :
    (writePass t data written s = writeReturn t data written s ∧
      (written < data.length → s.pipe.readers = 0)) ∨
    (writePass t data written s = (s, .fullWaking data written) ∧
      s.pipe.readers ≠ 0 ∧ capacity ≤ s.pipe.len) ∨
    (∃ count, 0 < count ∧ written + count ≤ data.length ∧ s.pipe.len + count ≤ capacity ∧
      writePass t data written s = ({ s with
          pipe := pushed s.pipe ((data.drop written).take count)
          put := s.put ++ ((data.drop written).take count).map fun byte => (t, byte) },
        .writing data (written + count))) := by
  unfold writePass
  by_cases more : written < data.length
  · rw [if_pos more]
    unfold writeOnce
    by_cases gone : s.pipe.readers = 0
    · exact Or.inl ⟨by simp [gone], fun _ => gone⟩
    · by_cases full : capacity - s.pipe.len = 0
      · exact Or.inr (Or.inl ⟨by simp [gone, full], gone, by omega⟩)
      · refine Or.inr (Or.inr ⟨min (capacity - s.pipe.len) (data.drop written).length, ?_⟩)
        have left : (data.drop written).length = data.length - written := List.length_drop
        obtain ⟨k, positive⟩ : ∃ k, min (capacity - s.pipe.len) (data.drop written).length = k + 1 :=
          ⟨min (capacity - s.pipe.len) (data.drop written).length - 1, by omega⟩
        have taken : ((data.drop written).take (k + 1)).length = k + 1 := by
          rw [List.length_take]
          omega
        refine ⟨by omega, by omega, by omega, ?_⟩
        simp only [if_neg gone, if_neg full, positive, pushed, taken]
  · exact Or.inl ⟨if_neg more, fun less => absurd less more⟩

/-- What the current call of a task has put in so far. -/
def moved : Place → List (BitVec 8)
  | .writing data written => data.take written
  | .fullWaking data written => data.take written
  | .writeWaiting data written => data.take written
  | _ => []

def Within : Place → Prop
  | .writing data written => written ≤ data.length
  | .fullWaking data written => written ≤ data.length
  | .writeWaiting data written => written ≤ data.length
  | _ => True

def sentBy (t : Fin n) (put : List (Fin n × BitVec 8)) : List (BitVec 8) :=
  (put.filter fun entry => entry.1 = t).map Prod.snd

/-- What a task's finished calls say they put in. -/
def answeredBy (t : Fin n) (writes : List (WriteCall n)) : List (BitVec 8) :=
  (writes.filter fun call => call.writer = t).flatMap fun call => call.data.take call.written

def takenOut (s : Shared n) : List (BitVec 8) := s.reads.flatMap ReadCall.bytes

/-- A `write` that stopped short saw no reader. -/
def WriteCall.Fair (call : WriteCall n) : Prop :=
  call.written ≤ call.data.length ∧
    (call.written < call.data.length → call.seen.readers = 0)

/-- A `read` with room answers nothing exactly at the end of the stream. -/
def ReadCall.Fair (call : ReadCall) : Prop :=
  0 < call.room → (call.bytes.length = 0 ↔ call.seen.len = 0 ∧ call.seen.writers = 0)

structure Intact (s : Shared n) (places : Fin n → Place) : Prop where
  ring : Ring s.pipe
  stream : s.put.map Prod.snd = takenOut s ++ contents s.pipe
  sent : ∀ t, sentBy t s.put = answeredBy t s.writes ++ moved (places t)
  within : ∀ t, Within (places t)
  writes : ∀ call ∈ s.writes, call.Fair
  reads : ∀ call ∈ s.reads, call.Fair

theorem intact_still {s s' : Shared n} {places : Fin n → Place} {t : Fin n} {p' : Place}
    (intact : Intact s places) (ring : Ring s'.pipe) (same : contents s'.pipe = contents s.pipe)
    (put : s'.put = s.put) (reads : s'.reads = s.reads) (writes : s'.writes = s.writes)
    (holds : moved p' = moved (places t)) (within : Within p') :
    Intact s' (Function.update places t p') := by
  refine ⟨ring, ?_, fun u => ?_, fun u => ?_, ?_, ?_⟩
  · rw [same, put, takenOut, reads]
    exact intact.stream
  · rw [put, writes, intact.sent, Function.update_apply]
    split_ifs with here
    · rw [here, holds]
    · rfl
  · rw [Function.update_apply]
    split_ifs
    · exact within
    · exact intact.within u
  · rw [writes]
    exact intact.writes
  · rw [reads]
    exact intact.reads

theorem readPass_intact {s : Shared n} {places : Fin n → Place} {t : Fin n} {room : Nat}
    (intact : Intact s places) (here : moved (places t) = []) :
    Intact (readPass room s).1 (Function.update places t (readPass room s).2) := by
  have idle : ∀ p', moved p' = [] → ∀ u, moved (Function.update places t p' u) = moved (places u) := by
    intro p' nothing u
    rw [Function.update_apply]
    split_ifs with same
    · rw [same, nothing, here]
    · rfl
  have inside : ∀ p', Within p' → ∀ u, Within (Function.update places t p' u) := by
    intro p' within u
    rw [Function.update_apply]
    split_ifs
    · exact within
    · exact intact.within u
  have logged : ∀ bytes : List (BitVec 8),
      takenOut { s with reads := s.reads ++ [⟨room, bytes, s.pipe⟩] } = takenOut s ++ bytes := by
    intro bytes
    simp [takenOut]
  have fair : ∀ bytes, (⟨room, bytes, s.pipe⟩ : ReadCall).Fair →
      ∀ call ∈ s.reads ++ [⟨room, bytes, s.pipe⟩], call.Fair := by
    intro bytes new call member
    rcases List.mem_append.mp member with old | last
    · exact intact.reads call old
    · rw [List.mem_singleton.mp last]
      exact new
  rcases readPass_cases room s with ⟨result, -⟩ | ⟨result, empty, ended⟩ | ⟨count, some, filled, result⟩
  · rw [result]
    exact intact_still intact intact.ring rfl rfl rfl rfl here.symm trivial
  · rw [result]
    refine ⟨intact.ring, ?_, fun u => ?_, inside _ trivial, intact.writes,
      fair [] fun _ => iff_of_true rfl ⟨empty, ended⟩⟩
    · exact intact.stream.trans (by rw [takenOut, takenOut, List.flatMap_append]; simp)
    · exact (intact.sent u).trans (by rw [idle .outside rfl u])
  · have enough : count ≤ s.pipe.len := some ▸ min_le_left _ _
    obtain ⟨ring, split⟩ := pop_contents intact.ring enough
    have size : (popBytes s.pipe count).1.length = count := by simp [popBytes_eq]
    have nothing : moved (if 0 < count then Place.readWaking else .outside) = [] ∧
        Within (if 0 < count then Place.readWaking else .outside) := by
      split_ifs
      · exact ⟨rfl, trivial⟩
      · exact ⟨rfl, trivial⟩
    rw [result]
    refine ⟨ring, ?_, fun u => ?_, inside _ nothing.2, intact.writes, fair _ fun room => ?_⟩
    · refine intact.stream.trans ?_
      rw [← split, ← List.append_assoc]
      congr 1
      exact (logged _).symm
    · exact (intact.sent u).trans (by rw [idle _ nothing.1 u])
    · refine iff_of_false ?_ fun ends => absurd ends.1 (Nat.pos_iff_ne_zero.mp filled)
      rw [size]
      have bound : 0 < count := some ▸ lt_min filled room
      exact Nat.pos_iff_ne_zero.mp bound

theorem writePass_intact {s : Shared n} {places : Fin n → Place} {t : Fin n}
    {data : List (BitVec 8)} {written : Nat} (intact : Intact s places)
    (here : places t = .writing data written) :
    Intact (writePass t data written s).1
      (Function.update places t (writePass t data written s).2) := by
  have within : written ≤ data.length := by
    have known := intact.within t
    rwa [here] at known
  have mine : moved (places t) = data.take written := by rw [here]; rfl
  rcases writePass_cases t data written s with ⟨result, short⟩ | ⟨result, -⟩ |
    ⟨count, some, inside, fits, result⟩
  · rw [result, writeReturn]
    have nothing : moved (if 0 < written then Place.doneWaking else .outside) = [] ∧
        Within (if 0 < written then Place.doneWaking else .outside) := by
      split_ifs
      · exact ⟨rfl, trivial⟩
      · exact ⟨rfl, trivial⟩
    generalize (if 0 < written then Place.doneWaking else .outside) = q at nothing
    refine ⟨intact.ring, intact.stream, fun u => ?_, fun u => ?_, fun call member => ?_,
      intact.reads⟩
    · simp only [answeredBy, List.filter_append, List.flatMap_append]
      rw [intact.sent u]
      rcases eq_or_ne u t with rfl | apart
      · rw [Function.update_self, mine, nothing.1]
        simp [answeredBy]
      · rw [Function.update_of_ne apart]
        simp [answeredBy, apart.symm]
    · rcases eq_or_ne u t with rfl | apart
      · rw [Function.update_self]
        exact nothing.2
      · rw [Function.update_of_ne apart]
        exact intact.within u
    · rcases List.mem_append.mp member with old | last
      · exact intact.writes call old
      · rw [List.mem_singleton.mp last]
        exact ⟨within, short⟩
  · rw [result]
    exact intact_still intact intact.ring rfl rfl rfl rfl (by rw [here]; rfl) within
  · have size : ((data.drop written).take count).length = count := by
      rw [List.length_take, List.length_drop]
      omega
    obtain ⟨ring, more⟩ := push_contents intact.ring ((data.drop written).take count)
      (by rw [size]; exact fits)
    rw [result]
    refine ⟨ring, ?_, fun u => ?_, fun u => ?_, intact.writes, intact.reads⟩
    · have tags : (((data.drop written).take count).map fun byte => (t, byte)).map Prod.snd =
          (data.drop written).take count := by
        rw [List.map_map]
        exact List.map_id _
      change (s.put ++ _).map Prod.snd = takenOut s ++ contents (pushed s.pipe _)
      rw [List.map_append, tags, intact.stream, List.append_assoc]
      exact congrArg (takenOut s ++ ·) more.symm
    · rw [Function.update_apply]
      simp only [sentBy, List.filter_append, List.map_append]
      rw [show (s.put.filter fun entry => decide (entry.1 = u)).map Prod.snd = sentBy u s.put from rfl,
        intact.sent u]
      split_ifs with same
      · subst same
        rw [mine, moved, List.take_add, List.append_assoc]
        congr 2
        rw [List.filter_eq_self.mpr, List.map_map]
        · exact List.map_id _
        · intro entry member
          obtain ⟨byte, -, rfl⟩ := List.mem_map.mp member
          exact decide_eq_true rfl
      · rw [List.filter_eq_nil_iff.mpr, List.map_nil, List.append_nil]
        intro entry member
        obtain ⟨byte, -, rfl⟩ := List.mem_map.mp member
        simpa using Ne.symm same
    · rw [Function.update_apply]
      split_ifs
      · exact inside
      · exact intact.within u

theorem goes_intact {id : PipeId} {s s' : Shared n} {places : Fin n → Place} {t : Fin n}
    {p' : Place} (intact : Intact s places)
    (goes : Goes (piping n id) t s (places t) s' p') :
    Intact s' (Function.update places t p') := by
  generalize here : places t = p at goes
  have still : ∀ (pipe : Pipe) (q : Place), pipe.buffer = s.pipe.buffer →
      pipe.head = s.pipe.head → pipe.tail = s.pipe.tail → pipe.len = s.pipe.len →
      moved q = moved p → Within q → Intact { s with pipe := pipe } (Function.update places t q) := by
    intro pipe q buffer head tail len same within
    refine intact_still intact ⟨?_, ?_⟩ ?_ rfl rfl rfl (by rw [here, same]) within
    · rw [head, tail, len]
      exact intact.ring.head
    · rw [len]
      exact intact.ring.fits
    · simp only [contents, buffer, tail, len]
  cases goes with
  | critical body code =>
      cases p <;> simp only [piping, action, reduceCtorEq, Action.critical.injEq] at code
      case reading room =>
        subst code
        exact readPass_intact intact (by rw [here]; rfl)
      case writing data written =>
        subst code
        exact writePass_intact intact here
      case addingReader =>
        subst code
        exact still _ _ rfl rfl rfl rfl rfl trivial
      case addingWriter =>
        subst code
        exact still _ _ rfl rfl rfl rfl rfl trivial
      case closingReader =>
        subst code
        refine still _ _ ?_ ?_ ?_ ?_ rfl trivial <;> simp only [dropReader] <;> split_ifs <;> rfl
      case closingWriter =>
        subst code
        refine still _ _ ?_ ?_ ?_ ?_ rfl trivial <;> simp only [dropWriter] <;> split_ifs <;> rfl
  | passed channel ready s' p' code test =>
      cases p <;> simp only [piping, action, reduceCtorEq, Action.blockUntil.injEq] at code
      case readWaiting room =>
        obtain ⟨-, rfl⟩ := code
        unfold readTest at test
        split_ifs at test
        obtain ⟨rfl, rfl⟩ := Prod.mk.inj (Option.some.inj test)
        exact still s.pipe _ rfl rfl rfl rfl rfl trivial
      case writeWaiting data written =>
        obtain ⟨-, rfl⟩ := code
        unfold writeTest at test
        split_ifs at test
        obtain ⟨rfl, rfl⟩ := Prod.mk.inj (Option.some.inj test)
        have within := intact.within t
        rw [here] at within
        exact still s.pipe _ rfl rfl rfl rfl rfl within
  | woke channel guarded next code =>
      have within := intact.within t
      rw [here] at within
      cases p <;> simp only [piping, action, reduceCtorEq, Action.wakeAll.injEq] at code <;>
        obtain ⟨-, -, rfl⟩ := code
      case fullWaking data written => exact still s.pipe _ rfl rfl rfl rfl rfl within
      all_goals exact still s.pipe _ rfl rfl rfl rfl rfl trivial
  | entered p' out way =>
      cases p <;> first | exact absurd out Bool.noConfusion | skip
      cases p' <;> first | exact absurd way Bool.noConfusion | skip
      case writing data written =>
        have start : written = 0 := of_decide_eq_true way
        subst start
        exact still s.pipe _ rfl rfl rfl rfl rfl (Nat.zero_le _)
      all_goals exact still s.pipe _ rfl rfl rfl rfl rfl trivial

theorem opened_intact {id : PipeId} {m : Machine n (Shared n) Place} (start : Opened id m) :
    Intact m.shared m.places := by
  have places : ∀ t, m.places t = .outside := fun t => (start.2 t).1
  rw [start.1]
  refine ⟨⟨rfl, Nat.zero_le _⟩, rfl, fun t => ?_, fun t => ?_, ?_, ?_⟩
  · rw [places]
    rfl
  · rw [places]
    trivial
  · exact fun call member => absurd member List.not_mem_nil
  · exact fun call member => absurd member List.not_mem_nil

theorem reached_intact {id : PipeId} {m : Machine n (Shared n) Place}
    (reached : Reached (step (piping n id)) (Opened id) (fun _ _ => True) m) :
    Intact m.shared m.places :=
  reached_places (fun _ start => opened_intact start)
    (fun _ _ _ _ _ intact goes => goes_intact intact goes) reached

/-- Two tasks on a pipe just made: one has gone to sleep reading, the other has put two
bytes in and not yet told it. -/
def untold : Machine 2 (Shared 2) Place :=
  (runAll (step (piping 2 0)) ⟨opened 2, fun _ => ⟨.ready, .outside, 0, false⟩⟩
    [.enter 0 (.reading 4), .act 0, .act 0, .enter 1 (.writing [7, 9] 0), .act 1]).get
    (by decide +kernel)

theorem untold_reached :
    Reached (step (piping 2 0)) (Opened 0) (fun _ _ => True) untold := by
  refine Reached.runAll (.start ⟨rfl, fun t => ⟨rfl, ?_, ?_⟩⟩)
    (allAllowed_of_forall (fun _ _ _ => trivial) _) (Option.some_get _).symm
  · exact (asleepOn_ne_ready _).symm
  · exact (asleepOn_ne_ready _).symm

/-- When a task may sleep: a reader on an empty pipe with a writer, a writer on a full
one with a reader. -/
def sleepable (id : PipeId) (s : Shared n) (c : Word) : Prop :=
  (c = readableChannel id ∧ s.pipe.len = 0 ∧ s.pipe.writers ≠ 0) ∨
    (c = writableChannel id ∧ capacity ≤ s.pipe.len ∧ s.pipe.readers ≠ 0)

/-- The call the task is in still has a `wake_all` on the channel before it. -/
def owes (id : PipeId) : Place → Word → Prop
  | .writing _ written, c => c = readableChannel id ∧ 0 < written
  | .fullWaking _ _, c => c = readableChannel id
  | .doneWaking, c => c = readableChannel id
  | .closedWriter, c => c = readableChannel id
  | .readWaking, c => c = writableChannel id
  | .closedReader, c => c = writableChannel id
  | _, _ => False

theorem channels_apart : ∀ id, readableChannel id ≠ writableChannel id := by decide

theorem sleepable_readable {id : PipeId} {s : Shared n} :
    sleepable id s (readableChannel id) ↔ s.pipe.len = 0 ∧ s.pipe.writers ≠ 0 := by
  simp [sleepable, channels_apart id]

theorem sleepable_writable {id : PipeId} {s : Shared n} :
    sleepable id s (writableChannel id) ↔ capacity ≤ s.pipe.len ∧ s.pipe.readers ≠ 0 := by
  simp [sleepable, (channels_apart id).symm]

theorem sleepable_keep {id : PipeId} {s s' : Shared n} {c : Word} (idle : sleepable id s c)
    (readable : c = readableChannel id → s'.pipe.len = s.pipe.len ∧
      (s.pipe.writers ≠ 0 → s'.pipe.writers ≠ 0))
    (writable : c = writableChannel id → s'.pipe.len = s.pipe.len ∧
      (s.pipe.readers ≠ 0 → s'.pipe.readers ≠ 0)) : sleepable id s' c := by
  rcases idle with ⟨rfl, empty, some⟩ | ⟨rfl, full, some⟩
  · obtain ⟨len, kept⟩ := readable rfl
    exact Or.inl ⟨rfl, len.trans empty, kept some⟩
  · obtain ⟨len, kept⟩ := writable rfl
    exact Or.inr ⟨rfl, len ▸ full, kept some⟩

theorem dropReader_counts (pipe : Pipe) :
    (dropReader pipe).len = pipe.len ∧ (dropReader pipe).writers = pipe.writers := by
  simp only [dropReader]
  split_ifs <;> exact ⟨rfl, rfl⟩

theorem dropWriter_counts (pipe : Pipe) :
    (dropWriter pipe).len = pipe.len ∧ (dropWriter pipe).readers = pipe.readers := by
  simp only [dropWriter]
  split_ifs <;> exact ⟨rfl, rfl⟩

theorem readPass_discipline {id : PipeId} {room : Nat} {s : Shared n} {c : Word}
    (known : c = readableChannel id ∨ c = writableChannel id) (idle : sleepable id s c) :
    sleepable id (readPass room s).1 c ∨ owes id (readPass room s).2 c := by
  rcases readPass_cases room s with ⟨result, -⟩ | ⟨result, -⟩ | ⟨count, some, filled, result⟩
  · rw [result]
    exact Or.inl idle
  · rw [result]
    exact Or.inl (sleepable_keep idle (fun _ => ⟨rfl, fun some => some⟩) fun _ =>
      ⟨rfl, fun some => some⟩)
  · obtain ⟨len, readers, -⟩ := popped_counts s.pipe count
    rw [result]
    rcases known with rfl | rfl
    · exact absurd (sleepable_readable.mp idle).1 (Nat.pos_iff_ne_zero.mp filled)
    · rcases Nat.eq_zero_or_pos count with none | positive
      · left
        obtain ⟨full, reader⟩ := sleepable_writable.mp idle
        refine sleepable_writable.mpr ⟨?_, ?_⟩
        · change capacity ≤ (popped s.pipe count).len
          rw [len, none]
          exact full
        · change (popped s.pipe count).readers ≠ 0
          rw [readers]
          exact reader
      · right
        rw [if_pos positive]
        rfl

theorem writePass_discipline {id : PipeId} {t : Fin n} {data : List (BitVec 8)} {written : Nat}
    {s : Shared n} {c : Word} (known : c = readableChannel id ∨ c = writableChannel id) :
    (owes id (.writing data written) c → owes id (writePass t data written s).2 c) ∧
      (sleepable id s c → sleepable id (writePass t data written s).1 c ∨
        owes id (writePass t data written s).2 c) := by
  rcases writePass_cases t data written s with ⟨result, -⟩ | ⟨result, -⟩ |
    ⟨count, some, -, fits, result⟩
  · rw [result, writeReturn]
    refine ⟨fun owed => ?_, fun idle => Or.inl ?_⟩
    · simp only [if_pos owed.2]
      exact owed.1
    · exact sleepable_keep idle (fun _ => ⟨rfl, fun some => some⟩) fun _ =>
        ⟨rfl, fun some => some⟩
  · rw [result]
    exact ⟨fun owed => owed.1, Or.inl⟩
  · rw [result]
    refine ⟨fun owed => ⟨owed.1, Nat.add_pos_right _ some⟩, fun idle => ?_⟩
    rcases known with rfl | rfl
    · exact Or.inr ⟨rfl, Nat.add_pos_right _ some⟩
    · have full := (sleepable_writable.mp idle).1
      omega

theorem disciplined (id : PipeId) : Disciplined (piping n id) (sleepable id) (owes id) where
  critical t p body s c code known := by
    have either : c = readableChannel id ∨ c = writableChannel id := by simpa [piping] using known
    cases p <;> simp only [piping, action, reduceCtorEq, Action.critical.injEq] at code
    case reading room =>
      subst code
      exact ⟨False.elim, readPass_discipline either⟩
    case writing data written =>
      subst code
      exact writePass_discipline either
    case addingReader =>
      subst code
      exact ⟨False.elim, fun idle => Or.inl (sleepable_keep idle (fun _ => ⟨rfl, fun some => some⟩)
        fun _ => ⟨rfl, fun _ => Nat.succ_ne_zero _⟩)⟩
    case addingWriter =>
      subst code
      exact ⟨False.elim, fun idle => Or.inl (sleepable_keep idle
        (fun _ => ⟨rfl, fun _ => Nat.succ_ne_zero _⟩) fun _ => ⟨rfl, fun some => some⟩)⟩
    case closingReader =>
      subst code
      obtain ⟨len, writers⟩ := dropReader_counts s.pipe
      refine ⟨False.elim, fun idle => ?_⟩
      rcases either with rfl | rfl
      · refine Or.inl (sleepable_keep idle (fun _ => ⟨len, fun some => ?_⟩) fun same => ?_)
        · rw [writers]
          exact some
        · exact absurd same (channels_apart id)
      · exact Or.inr rfl
    case closingWriter =>
      subst code
      obtain ⟨len, readers⟩ := dropWriter_counts s.pipe
      refine ⟨False.elim, fun idle => ?_⟩
      rcases either with rfl | rfl
      · exact Or.inr rfl
      · refine Or.inl (sleepable_keep idle (fun same => ?_) fun _ => ⟨len, fun some => ?_⟩)
        · exact absurd same.symm (channels_apart id)
        · rw [readers]
          exact some
  blocks t p channel ready code := by
    cases p <;> simp only [piping, action, reduceCtorEq, Action.blockUntil.injEq] at code
    all_goals exact ⟨by simp [piping, ← code.1], fun _ owed => owed⟩
  tested t p channel ready s code := by
    cases p <;> simp only [piping, action, reduceCtorEq, Action.blockUntil.injEq] at code
    case readWaiting room =>
      obtain ⟨rfl, rfl⟩ := code
      rw [sleepable_readable, readTest]
      split_ifs with go
      · simp only [false_iff]
        omega
      · simp only [true_iff]
        omega
    case writeWaiting data written =>
      obtain ⟨rfl, rfl⟩ := code
      rw [sleepable_writable, writeTest]
      split_ifs with go
      · simp only [false_iff]
        omega
      · simp only [true_iff]
        omega
  passed t p channel ready s s' p' c code test known idle := by
    cases p <;> simp only [piping, action, reduceCtorEq, Action.blockUntil.injEq] at code
    case readWaiting room =>
      obtain ⟨-, rfl⟩ := code
      unfold readTest at test
      split_ifs at test
      obtain ⟨rfl, -⟩ := Prod.mk.inj (Option.some.inj test)
      exact Or.inl idle
    case writeWaiting data written =>
      obtain ⟨-, rfl⟩ := code
      unfold writeTest at test
      split_ifs at test
      obtain ⟨rfl, -⟩ := Prod.mk.inj (Option.some.inj test)
      exact Or.inl idle
  woken t p channel guarded next c code := by
    cases p <;> simp only [piping, action, reduceCtorEq, Action.wakeAll.injEq] at code <;>
      obtain ⟨rfl, -, rfl⟩ := code <;> simp [owes]
  outside t p c out := by
    cases p <;> first | exact absurd out Bool.noConfusion | exact False.elim

/-- In every state of every run a reader sleeps on an empty pipe that has a writer, or
some ready task has a `wake_all` for it still before it; and a writer on a full pipe that
has a reader, or the same. -/
theorem pipe_wakeups_kept {id : PipeId} {m : Machine n (Shared n) Place}
    (reached : Reached (step (piping n id)) (Opened id) (fun _ _ => True) m) (u : Fin n) :
    ((m.threads u).state = asleepOn (readableChannel id) →
      (m.shared.pipe.len = 0 ∧ 0 < m.shared.pipe.writers) ∨
        ∃ w, (m.threads w).state = .ready ∧ owes id (m.threads w).place (readableChannel id)) ∧
    ((m.threads u).state = asleepOn (writableChannel id) →
      (m.shared.pipe.len = capacity ∧ 0 < m.shared.pipe.readers) ∨
        ∃ w, (m.threads w).state = .ready ∧ owes id (m.threads w).place (writableChannel id)) := by
  have begun : ∀ m : Machine n (Shared n) Place, Opened id m → AllOutside (piping n id) m := by
    intro m start t
    obtain ⟨place, reader, writer⟩ := start.2 t
    refine ⟨by rw [place]; rfl, fun c known => ?_⟩
    have either : c = readableChannel id ∨ c = writableChannel id := by simpa [piping] using known
    rcases either with rfl | rfl
    · exact reader
    · exact writer
  have kept := fun c => no_lost_wakeup (u := u) (c := c) (disciplined id) begun reached
  have fits := (reached_intact reached).ring.fits
  refine ⟨fun asleep => ?_, fun asleep => ?_⟩
  · refine (kept _ (by simp [piping]) asleep).imp_left fun idle => ?_
    obtain ⟨empty, some⟩ := sleepable_readable.mp idle
    exact ⟨empty, Nat.pos_of_ne_zero some⟩
  · refine (kept _ (by simp [piping]) asleep).imp_left fun idle => ?_
    obtain ⟨full, some⟩ := sleepable_writable.mp idle
    exact ⟨le_antisymm fits full, Nat.pos_of_ne_zero some⟩

theorem pipe_wakeups_kept_untold :
    ((untold.threads 0).state = asleepOn (readableChannel 0) →
      (untold.shared.pipe.len = 0 ∧ 0 < untold.shared.pipe.writers) ∨
        ∃ w, (untold.threads w).state = .ready ∧
          owes 0 (untold.threads w).place (readableChannel 0)) ∧
    ((untold.threads 0).state = asleepOn (writableChannel 0) →
      (untold.shared.pipe.len = capacity ∧ 0 < untold.shared.pipe.readers) ∨
        ∃ w, (untold.threads w).state = .ready ∧
          owes 0 (untold.threads w).place (writableChannel 0)) :=
  pipe_wakeups_kept untold_reached 0

end FiveAM.Process.PipeRuns
