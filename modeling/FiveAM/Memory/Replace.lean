/- GID: FiveAM/Memory/Replace
   source: kernel/src/replace.rs, kernel/src/memory.rs
   digest: The resident pages as a replacement policy sees them, and the four policies. -/

import FiveAM.Memory.Frames

set_option autoImplicit false
set_option relaxedAutoImplicit false

namespace FiveAM.Memory.Replace

open FiveAM.Process.TaskTable (Word)
open FiveAM.Memory.Entries FiveAM.Memory.Frames

/-- A resident user page: its address, its entry when the tables were walked, and
where that entry is kept. -/
structure Page where
  address : Word
  entry : Word
  table : Word
  index : Index
  deriving DecidableEq, Inhabited

abbrev Pages := List Page

/-- The `i`-th page; policies only ask for `i < len`. -/
def pageAt (pages : Pages) (i : Nat) : Page := pages.getD i default

namespace PageSet

def entry (s : Paging) (pages : Pages) (i : Nat) : Word :=
  s.words (pageAt pages i).table (pageAt pages i).index

def accessed (s : Paging) (pages : Pages) (i : Nat) : Bool := has (entry s pages i) Entries.accessed

def dirty (s : Paging) (pages : Pages) (i : Nat) : Bool := has (entry s pages i) Entries.dirty

def eligible (s : Paging) (pages : Pages) (i : Nat) : Bool :=
  has (entry s pages i) present && !has (entry s pages i) swapped &&
    !s.isShared (frameOf (entry s pages i))

def clearAccessed (s : Paging) (pages : Pages) (i : Nat) : Paging :=
  s.write (pageAt pages i).table (pageAt pages i).index (entry s pages i &&& ~~~Entries.accessed)

end PageSet

open PageSet

def setClock (s : Paging) (hand : Nat) : Paging :=
  { s with replacers := { s.replacers with clock := ⟨hand⟩ } }

/-- The sweep of `Clock::choose` over the remaining steps. -/
def clockSweep (s : Paging) (pages : Pages) : List Nat → Option Nat × Paging
  | [] => (none, s)
  | index :: rest =>
      if eligible s pages index = false then clockSweep s pages rest
      else if accessed s pages index then clockSweep (clearAccessed s pages index) pages rest
      else (some index, setClock s ((index + 1) % pages.length))

def clockChoose (s : Paging) (pages : Pages) : Option Nat × Paging :=
  clockSweep s pages ((List.range (pages.length * 2)).map fun step =>
    (s.replacers.clock.hand + step) % pages.length)

namespace Fifo

def slotOf (p : Fifo) (address : Word) : Option (Fin tracked) :=
  (List.finRange tracked).find? fun i => decide (p.stamp i ≠ 0 ∧ p.address i = address)

/-- When a page arrived; a page never seen to arrive is older than any other. -/
def age (p : Fifo) (address : Word) : Nat :=
  match slotOf p address with
  | some slot => p.stamp slot
  | none => 0

def leastStamp (p : Fifo) : Fin tracked :=
  (List.finRange tracked).foldl (fun best i => if p.stamp i < p.stamp best then i else best) 0

def onResident (p : Fifo) (address : Word) : Fifo :=
  if (slotOf p address).isSome then p
  else
    let free := ((List.finRange tracked).find? fun i => decide (p.stamp i = 0)).getD (leastStamp p)
    { address := Function.update p.address free address
      stamp := Function.update p.stamp free p.next
      next := p.next + 1 }

def onEvicted (p : Fifo) (address : Word) : Fifo :=
  match slotOf p address with
  | some slot => { p with stamp := Function.update p.stamp slot 0 }
  | none => p

end Fifo

def fifoChoose (s : Paging) (pages : Pages) : Option Nat × Paging :=
  let best := (List.range pages.length).foldl
    (fun (best : Option Nat × Nat) index =>
      if eligible s pages index = false then best
      else
        let age := Fifo.age s.replacers.fifo (pageAt pages index).address
        if age < best.2 then (some index, age) else best)
    (none, 2 ^ 64 - 1)
  (best.1, s)

def nruClass (s : Paging) (pages : Pages) (index : Nat) : Nat :=
  (accessed s pages index).toNat * 2 + (dirty s pages index).toNat

/-- The first loop of `Nru::choose`, which stops at class 0. -/
def nruBest (s : Paging) (pages : Pages) (best : Option (Nat × Nat)) : List Nat → Option (Nat × Nat)
  | [] => best
  | index :: rest =>
      if eligible s pages index = false then nruBest s pages best rest
      else
        let kind := nruClass s pages index
        let best := if best.all fun b => decide (kind < b.1) then some (kind, index) else best
        if kind = 0 then best else nruBest s pages best rest

def nruChoose (s : Paging) (pages : Pages) : Option Nat × Paging :=
  match nruBest s pages none (List.range pages.length) with
  | none => (none, s)
  | some (_, chosen) =>
      (some chosen, (List.range pages.length).foldl
        (fun s index => if accessed s pages index then clearAccessed s pages index else s) s)

def seed : Word := 0x2545f4914f6cdd1d

def nextRandom (p : Random) : Random :=
  let state := if p.state = 0 then seed else p.state
  let state := state ^^^ (state <<< 13)
  let state := state ^^^ (state >>> 7)
  ⟨state ^^^ (state <<< 17)⟩

/-- The `wanted`-th eligible page. -/
def nthEligible (s : Paging) (pages : Pages) : Nat → List Nat → Option Nat
  | _, [] => none
  | wanted, index :: rest =>
      if eligible s pages index = false then nthEligible s pages wanted rest
      else if wanted = 0 then some index
      else nthEligible s pages (wanted - 1) rest

def randomChoose (s : Paging) (pages : Pages) : Option Nat × Paging :=
  let count := ((List.range pages.length).filter (eligible s pages)).length
  if count = 0 then (none, s)
  else
    let random := nextRandom s.replacers.random
    (nthEligible s pages (random.state.toNat % count) (List.range pages.length),
      { s with replacers := { s.replacers with random := random } })

def choose (s : Paging) (pages : Pages) : Option Nat × Paging :=
  match s.replacers.active with
  | 1 => fifoChoose s pages
  | 2 => nruChoose s pages
  | 3 => randomChoose s pages
  | _ => clockChoose s pages

/-- A user page became resident: `Fifo` is the one policy that listens. -/
def noteResident (s : Paging) (address : Word) : Paging :=
  if s.replacers.active = 1 then
    { s with replacers := { s.replacers with fifo := Fifo.onResident s.replacers.fifo address } }
  else s

def noteEvicted (s : Paging) (address : Word) : Paging :=
  if s.replacers.active = 1 then
    { s with replacers := { s.replacers with fifo := Fifo.onEvicted s.replacers.fifo address } }
  else s

end FiveAM.Memory.Replace
