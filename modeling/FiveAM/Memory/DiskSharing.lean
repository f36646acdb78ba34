/- GID: FiveAM/Memory/DiskSharing
   source: kernel/src/ata.rs
   digest: Disk transfers port by port, with other tasks' transfers in between. -/

import FiveAM.Lib.Interleaving
import Mathlib.Data.BitVec
import Mathlib.Tactic.SplitIfs

set_option autoImplicit false
set_option relaxedAutoImplicit false

namespace FiveAM.Memory.DiskSharing

open FiveAM.Lib.Runs FiveAM.Lib.Interleaving

abbrev Byte := BitVec 8

def sectorSize : Nat := 512
def statusBusy : Byte := 1 <<< 7
def statusDrq : Byte := 1 <<< 3
def statusError : Byte := 1 <<< 0
def commandReadSectors : Byte := 0x20
def commandWriteSectors : Byte := 0x30
def commandFlushCache : Byte := 0xE7

/-- `DISK`: primary bus, slave. -/
def disk : Byte := 1

/-- A command the drive has begun: from which sector, how many words, and how many of
them have gone through the data port. -/
structure Transfer where
  writing : Bool
  base : Nat
  words : Nat
  done : Nat

/-- The drive: the registers, what is on it byte by byte, and what it is doing. -/
structure Drive where
  select : Byte
  count : Byte
  low : Byte
  mid : Byte
  high : Byte
  contents : Nat → Byte
  transfer : Option Transfer

namespace Drive

/-- The 28 bits of the registers that number a sector. -/
def address (d : Drive) : Nat :=
  (d.select.toNat % 16) * 2 ^ 24 + d.high.toNat * 2 ^ 16 + d.mid.toNat * 2 ^ 8 + d.low.toNat

def sectors (d : Drive) : Nat := if d.count = 0 then 256 else d.count.toNat

/-- A command uses the registers as they are, and replaces an unfinished one. -/
def command (d : Drive) (code : Byte) : Drive :=
  if code = commandReadSectors then
    { d with transfer := some ⟨false, d.address, 256 * d.sectors, 0⟩ }
  else if code = commandWriteSectors then
    { d with transfer := some ⟨true, d.address, 256 * d.sectors, 0⟩ }
  else { d with transfer := none }

/-- The next word of a read; anything when there is none. -/
def dataIn (d : Drive) (other : BitVec 16) : BitVec 16 × Drive :=
  match d.transfer with
  | some t =>
      if t.writing = false ∧ t.done < t.words then
        let a := sectorSize * t.base + 2 * t.done
        ((d.contents a).setWidth 16 ||| (d.contents (a + 1)).setWidth 16 <<< 8,
          { d with transfer := some { t with done := t.done + 1 } })
      else (other, d)
  | none => (other, d)

def dataOut (d : Drive) (w : BitVec 16) : Drive :=
  match d.transfer with
  | some t =>
      if t.writing = true ∧ t.done < t.words then
        let a := sectorSize * t.base + 2 * t.done
        { d with
          contents := Function.update (Function.update d.contents a (w.setWidth 8)) (a + 1)
            ((w >>> 8).setWidth 8)
          transfer := some { t with done := t.done + 1 } }
      else d
  | none => d

end Drive

/-- A call of `read` or `write`, with the drive's contents when it was made. -/
structure Request where
  writing : Bool
  lba : BitVec 32
  buffer : List Byte
  before : Nat → Byte

def Request.put (r : Request) (i : Nat) (low high : Byte) : Request :=
  { r with buffer := (r.buffer.set i low).set (i + 1) high }

def Request.count (r : Request) : Nat := r.buffer.length / sectorSize

def Request.code (r : Request) : Byte :=
  if r.writing then commandWriteSectors else commandReadSectors

/-- A call that has returned, an error or nothing, and the drive's contents then. -/
structure Finished where
  request : Request
  result : Except String Unit
  after : Nat → Byte

/-- The drive, and the calls that have returned. -/
structure Shared where
  drive : Drive
  log : List Finished

/-- Between which port accesses of its transfer a task is. -/
inductive Place where
  | idle
  | selecting (r : Request)
  | settling (r : Request) (left : Nat)
  | lowering (r : Request)
  | middling (r : Request)
  | raising (r : Request)
  | commanding (r : Request)
  | polling (r : Request) (sector tries : Nat)
  | moving (r : Request) (sector word : Nat)
  | flushing (r : Request)
  | flushPolling (r : Request) (tries : Nat)

/-- What a task does next: call, or go on with what the drive shows it. -/
inductive Ask where
  | go (status : Byte) (other : BitVec 16)
  | call (writing : Bool) (lba : BitVec 32) (buffer : List Byte)

def finish (s : Shared) (r : Request) (result : Except String Unit) : Shared × Place :=
  ({ s with log := s.log ++ [⟨r, result, s.drive.contents⟩] }, .idle)

/-- One pass through the loop of `wait_ready`: its result, or to look again. -/
def waitReady (status : Byte) (tries : Nat) : Option (Except String Byte) :=
  if status = 0xFF then some (.error "no drive on this bus")
  else if status &&& statusBusy = 0 then
    if status &&& statusError ≠ 0 then some (.error "the drive reported an error")
    else some (.ok status)
  else if tries + 1 = 1000000 then some (.error "the drive never became ready")
  else none

/-- One pass through the loop over the words of a sector. -/
def moveWord (s : Shared) (r : Request) (sector word : Nat) (other : BitVec 16) :
    Shared × Request :=
  let at_ := sector * sectorSize + word * 2
  if r.writing then
    let low := (r.buffer.getD at_ 0).setWidth 16
    let high := (r.buffer.getD (at_ + 1) 0).setWidth 16
    ({ s with drive := s.drive.dataOut (low ||| high <<< 8) }, r)
  else
    let value := (s.drive.dataIn other).1
    ({ s with drive := (s.drive.dataIn other).2 },
      r.put at_ (value.setWidth 8) ((value >>> 8).setWidth 8))

/-- Where the loops over words and sectors go on. -/
def afterWord (s : Shared) (r : Request) (sector word : Nat) : Shared × Place :=
  if word + 1 < sectorSize / 2 then (s, .moving r sector (word + 1))
  else if sector + 1 < r.count then (s, .polling r (sector + 1) 0)
  else if r.writing then (s, .flushing r)
  else finish s r (.ok ())

/-- The next port access of `read` and `write`. -/
def next (s : Shared) : Place → Ask → Option (Shared × Place)
  | .idle, .call writing lba buffer =>
      let r : Request := ⟨writing, lba, buffer, s.drive.contents⟩
      if buffer.length % sectorSize ≠ 0 then
        some (finish s r (.error "buffer is not a whole number of sectors"))
      else if r.count = 0 then some (finish s r (.ok ()))
      else if 256 < r.count then
        some (finish s r (.error "too many sectors for one request"))
      else some (s, .selecting r)
  | .selecting r, .go _ _ =>
      some ({ s with drive := { s.drive with
        select := 0xE0 ||| disk <<< 4 ||| ((r.lba >>> 24) &&& 0x0F).setWidth 8 } },
        .settling r 4)
  | .settling r (left + 1), .go _ _ => some (s, .settling r left)
  | .settling r 0, .go _ _ =>
      some ({ s with drive := { s.drive with
        count := if r.count = 256 then 0 else BitVec.ofNat 8 r.count } }, .lowering r)
  | .lowering r, .go _ _ =>
      some ({ s with drive := { s.drive with low := r.lba.setWidth 8 } }, .middling r)
  | .middling r, .go _ _ =>
      some ({ s with drive := { s.drive with mid := (r.lba >>> 8).setWidth 8 } }, .raising r)
  | .raising r, .go _ _ =>
      some ({ s with drive := { s.drive with high := (r.lba >>> 16).setWidth 8 } }, .commanding r)
  | .commanding r, .go _ _ =>
      some ({ s with drive := s.drive.command r.code }, .polling r 0 0)
  | .polling r sector tries, .go status _ =>
      match waitReady status tries with
      | none => some (s, .polling r sector (tries + 1))
      | some (.error text) => some (finish s r (.error text))
      | some (.ok status) =>
          if status &&& statusDrq = 0 then
            some (finish s r (.error (if r.writing then "the drive will not accept data"
              else "the drive has no data to give")))
          else some (s, .moving r sector 0)
  | .moving r sector word, .go _ other =>
      some (afterWord (moveWord s r sector word other).1 (moveWord s r sector word other).2
        sector word)
  | .flushing r, .go _ _ =>
      some ({ s with drive := s.drive.command commandFlushCache }, .flushPolling r 0)
  | .flushPolling r tries, .go status _ =>
      match waitReady status tries with
      | none => some (s, .flushPolling r (tries + 1))
      | some (.error text) => some (finish s r (.error text))
      | some (.ok _) => some (finish s r (.ok ()))
  | _, _ => none

def inside : Place → Bool
  | .idle => false
  | _ => true

/-- The drive with the bytes put over those from `a` on. -/
def stored (contents : Nat → Byte) (a : Nat) (bytes : List Byte) : Nat → Byte := fun x =>
  if a ≤ x ∧ x - a < bytes.length then bytes.getD (x - a) 0 else contents x

/-- The first byte of the sectors a call names. -/
def Request.first (r : Request) : Nat := sectorSize * r.lba.toNat

/-- A `read` that returned `Ok` has what is in its sectors, and has changed nothing; a
`write` has put its buffer in its sectors, and has changed nothing else. -/
def Finished.Correct (f : Finished) : Prop :=
  f.result = .ok () →
    if f.request.writing then f.after = stored f.request.before f.request.first f.request.buffer
    else f.after = f.request.before ∧
      ∀ i < f.request.buffer.length, f.request.buffer.getD i 0 = f.after (f.request.first + i)

section Words

private theorem join_low (lo hi : Byte) :
    (lo.setWidth 16 ||| hi.setWidth 16 <<< 8).setWidth 8 = lo := by
  ext i h
  simp

private theorem join_high (lo hi : Byte) :
    ((lo.setWidth 16 ||| hi.setWidth 16 <<< 8) >>> 8).setWidth 8 = hi := by
  ext i h
  have inside : 8 + i < 16 := by omega
  simp [inside, BitVec.getLsbD_eq_getElem h]

theorem address_eq {d : Drive} {lba : BitVec 32} (small : lba.toNat < 2 ^ 28)
    (select : d.select = 0xE0 ||| disk <<< 4 ||| ((lba >>> 24) &&& 0x0F).setWidth 8)
    (low : d.low = lba.setWidth 8) (mid : d.mid = (lba >>> 8).setWidth 8)
    (high : d.high = (lba >>> 16).setWidth 8) : d.address = lba.toNat := by
  have nibble : ∀ b : Byte, (0xE0 ||| disk <<< 4 ||| (b &&& 0x0F)).toNat % 16 = b.toNat % 16 := by
    decide +kernel
  have narrow : ((lba >>> 24) &&& 0x0F).setWidth 8 = (lba >>> 24).setWidth 8 &&& 0x0F := by
    ext i h
    simp
  unfold Drive.address
  rw [select, narrow, nibble, low, mid, high]
  simp only [BitVec.toNat_setWidth, BitVec.toNat_ushiftRight, Nat.shiftRight_eq_div_pow]
  omega

theorem sectors_eq {d : Drive} {count : Nat} (some : 1 ≤ count) (most : count ≤ 256)
    (register : d.count = if count = 256 then 0 else BitVec.ofNat 8 count) :
    d.sectors = count := by
  unfold Drive.sectors
  rw [register]
  split_ifs with full zero zero
  · exact full.symm
  · exact absurd rfl zero
  · have value := congrArg BitVec.toNat zero
    rw [BitVec.toNat_ofNat, Nat.mod_eq_of_lt (by omega)] at value
    exact absurd value (by simp; omega)
  · rw [BitVec.toNat_ofNat, Nat.mod_eq_of_lt (by omega)]

end Words

theorem stored_word {contents : Nat → Byte} {a done : Nat} {buffer : List Byte}
    (room : 2 * done + 2 ≤ buffer.length) :
    Function.update (Function.update (stored contents a (buffer.take (2 * done))) (a + 2 * done)
        (buffer.getD (2 * done) 0)) (a + 2 * done + 1) (buffer.getD (2 * done + 1) 0) =
      stored contents a (buffer.take (2 * (done + 1))) := by
  have short : (buffer.take (2 * done)).length = 2 * done := by
    rw [List.length_take]
    omega
  have long : (buffer.take (2 * (done + 1))).length = 2 * (done + 1) := by
    rw [List.length_take]
    omega
  have here : ∀ k i, i < k → (buffer.take k).getD i 0 = buffer.getD i 0 := by
    intro k i below
    rw [List.getD_eq_getElem?_getD, List.getElem?_take_of_lt below, List.getD_eq_getElem?_getD]
  funext x
  simp only [Function.update_apply, stored, short, long]
  by_cases second : x = a + 2 * done + 1
  · rw [if_pos second, if_pos (by omega), here _ _ (by omega), second]
    congr 1
    omega
  · rw [if_neg second]
    by_cases first : x = a + 2 * done
    · rw [if_pos first, if_pos (by omega), here _ _ (by omega), first]
      congr 1
      omega
    · rw [if_neg first]
      by_cases before : a ≤ x ∧ x - a < 2 * done
      · rw [if_pos before, if_pos (by omega), here _ _ before.2, here _ _ (by omega)]
      · rw [if_neg before, if_neg (by omega)]

theorem stored_nil (contents : Nat → Byte) (a : Nat) : stored contents a [] = contents := by
  funext x
  simp [stored]

/-- The words of a call that have gone through the data port so far. -/
def Progress (s : Shared) (r : Request) (done : Nat) : Prop :=
  if r.writing then s.drive.contents = stored r.before r.first (r.buffer.take (2 * done))
  else s.drive.contents = r.before ∧
    ∀ i < 2 * done, r.buffer.getD i 0 = r.before (r.first + i)

/-- A call that passed its checks, for sectors that 28 bits can number. -/
structure Sized (r : Request) : Prop where
  whole : r.buffer.length = 512 * r.count
  some : 1 ≤ r.count
  most : r.count ≤ 256
  small : r.lba.toNat < 2 ^ 28

structure Started (s : Shared) (r : Request) (done : Nat) : Prop where
  sized : Sized r
  logged : ∀ f ∈ s.log, f.Correct
  progress : Progress s r done

structure Moving (s : Shared) (r : Request) (done : Nat) : Prop extends Started s r done where
  transfer : s.drive.transfer = Option.some ⟨r.writing, r.lba.toNat, 256 * r.count, done⟩

def Selected (d : Drive) (r : Request) : Prop :=
  d.select = 0xE0 ||| disk <<< 4 ||| ((r.lba >>> 24) &&& 0x0F).setWidth 8

def Counted (d : Drive) (r : Request) : Prop :=
  Selected d r ∧ d.count = if r.count = 256 then 0 else BitVec.ofNat 8 r.count

def Lowered (d : Drive) (r : Request) : Prop := Counted d r ∧ d.low = r.lba.setWidth 8

def Middled (d : Drive) (r : Request) : Prop :=
  Lowered d r ∧ d.mid = (r.lba >>> 8).setWidth 8

def Raised (d : Drive) (r : Request) : Prop :=
  Middled d r ∧ d.high = (r.lba >>> 16).setWidth 8

def Rest (s : Shared) : Prop := ∀ f ∈ s.log, f.Correct

/-- What a task that has the drive to itself finds between its port accesses. -/
def Within (s : Shared) : Place → Prop
  | .idle => Rest s
  | .selecting r => Started s r 0
  | .settling r _ => Started s r 0 ∧ Selected s.drive r
  | .lowering r => Started s r 0 ∧ Counted s.drive r
  | .middling r => Started s r 0 ∧ Lowered s.drive r
  | .raising r => Started s r 0 ∧ Middled s.drive r
  | .commanding r => Started s r 0 ∧ Raised s.drive r
  | .polling r sector _ => Moving s r (256 * sector) ∧ sector < r.count
  | .moving r sector word => Moving s r (256 * sector + word) ∧ sector < r.count ∧ word < 256
  | .flushing r => Started s r (256 * r.count) ∧ r.writing = true
  | .flushPolling r _ => Started s r (256 * r.count) ∧ r.writing = true

theorem held_iff (s : Shared) (p : Place) : Held inside Rest Within s p ↔ Within s p := by
  cases p <;> rfl

theorem finish_within {s : Shared} {r : Request} {result : Except String Unit}
    (logged : ∀ f ∈ s.log, f.Correct)
    (correct : (⟨r, result, s.drive.contents⟩ : Finished).Correct) :
    Within (finish s r result).1 (finish s r result).2 := by
  intro f member
  rcases List.mem_append.mp member with old | new
  · exact logged f old
  · rw [List.mem_singleton.mp new]
    exact correct

theorem failed_correct (r : Request) (text : String) (after : Nat → Byte) :
    (⟨r, .error text, after⟩ : Finished).Correct := by
  intro ok
  exact absurd ok (by simp)

theorem done_correct {s : Shared} {r : Request} (started : Started s r (256 * r.count)) :
    (⟨r, .ok (), s.drive.contents⟩ : Finished).Correct := by
  intro _
  have progress := started.progress
  have whole := started.sized.whole
  have all : 2 * (256 * r.count) = r.buffer.length := by omega
  unfold Progress at progress
  simp only
  split_ifs at progress ⊢ with writing
  · rw [progress, all, List.take_length]
  · refine ⟨progress.1, fun i inside => ?_⟩
    rw [progress.2 i (by omega), progress.1]

theorem moveWord_write {s : Shared} {r : Request} {sector word done : Nat} {other : BitVec 16}
    (writing : r.writing = true) (place : sector * sectorSize + word * 2 = 2 * done)
    (transfer : s.drive.transfer = some ⟨true, r.lba.toNat, 256 * r.count, done⟩)
    (more : done < 256 * r.count) :
    moveWord s r sector word other = ({ s with drive := { s.drive with
      contents := Function.update (Function.update s.drive.contents (r.first + 2 * done)
        (r.buffer.getD (2 * done) 0)) (r.first + 2 * done + 1) (r.buffer.getD (2 * done + 1) 0)
      transfer := some ⟨true, r.lba.toNat, 256 * r.count, done + 1⟩ } }, r) := by
  simp only [moveWord, if_pos writing, Drive.dataOut, transfer, more, and_self, if_true, place,
    join_low, join_high]
  rfl

theorem moveWord_read {s : Shared} {r : Request} {sector word done : Nat} {other : BitVec 16}
    (reading : ¬r.writing = true) (place : sector * sectorSize + word * 2 = 2 * done)
    (transfer : s.drive.transfer = some ⟨false, r.lba.toNat, 256 * r.count, done⟩)
    (more : done < 256 * r.count) :
    moveWord s r sector word other = ({ s with drive := { s.drive with
        transfer := some ⟨false, r.lba.toNat, 256 * r.count, done + 1⟩ } },
      r.put (2 * done) (s.drive.contents (r.first + 2 * done))
        (s.drive.contents (r.first + 2 * done + 1))) := by
  simp only [moveWord, if_neg reading, Drive.dataIn, transfer, more, and_self, if_true, place,
    join_low, join_high]
  rfl

private theorem getD_set_other {l : List Byte} {i j : Nat} {b : Byte} (apart : j ≠ i) :
    (l.set i b).getD j 0 = l.getD j 0 := by
  rw [List.getD_eq_getElem?_getD, List.getElem?_set_ne (Ne.symm apart),
    List.getD_eq_getElem?_getD]

private theorem getD_set_self {l : List Byte} {i : Nat} {b : Byte} (inside : i < l.length) :
    (l.set i b).getD i 0 = b := by
  rw [List.getD_eq_getElem?_getD, List.getElem?_set_self inside]
  rfl

theorem moveWord_moving {s : Shared} {r : Request} {sector word : Nat} (other : BitVec 16)
    (moving : Moving s r (256 * sector + word)) (here : sector < r.count) (inSector : word < 256) :
    Moving (moveWord s r sector word other).1 (moveWord s r sector word other).2
        (256 * sector + (word + 1)) ∧
      (moveWord s r sector word other).2.count = r.count := by
  obtain ⟨⟨⟨whole, some, most, small⟩, logged, progress⟩, transfer⟩ := moving
  have place : sector * sectorSize + word * 2 = 2 * (256 * sector + word) := by
    simp only [sectorSize]
    omega
  have more : 256 * sector + word < 256 * r.count := by omega
  rw [← Nat.add_assoc]
  generalize 256 * sector + word = done at place progress transfer more ⊢
  unfold Progress at progress
  cases writing : r.writing with
  | true =>
      rw [if_pos writing] at progress
      rw [writing] at transfer
      rw [moveWord_write writing place transfer more]
      refine ⟨⟨⟨⟨whole, some, most, small⟩, logged, ?_⟩, by rw [writing]⟩, rfl⟩
      simp only [Progress, if_pos writing, progress]
      exact stored_word (by omega)
  | false =>
      have reading : ¬r.writing = true := by rw [writing]; exact Bool.noConfusion
      rw [if_neg reading] at progress
      obtain ⟨same, got⟩ := progress
      rw [writing] at transfer
      rw [moveWord_read reading place transfer more]
      have length : ∀ b c, (r.put (2 * done) b c).buffer.length = r.buffer.length := by
        intro b c
        simp only [Request.put, List.length_set]
      have count : ∀ b c, (r.put (2 * done) b c).count = r.count := by
        intro b c
        simp only [Request.count, length]
      refine ⟨⟨⟨⟨?_, ?_, ?_, small⟩, logged, ?_⟩, ?_⟩, count _ _⟩
      · rw [count, length]
        exact whole
      · rw [count]
        exact some
      · rw [count]
        exact most
      · unfold Progress
        rw [if_neg (by exact reading)]
        refine ⟨same, fun i low => ?_⟩
        change ((r.buffer.set (2 * done) _).set (2 * done + 1) _).getD i 0 = r.before (r.first + i)
        rcases Nat.lt_or_ge i (2 * done) with old | new
        · rw [getD_set_other (by omega), getD_set_other (by omega)]
          exact got i old
        · rcases Nat.eq_or_lt_of_le new with rfl | last
          · rw [getD_set_other (by omega), getD_set_self (by omega), same]
          · have eq : i = 2 * done + 1 := by omega
            subst eq
            rw [getD_set_self (by rw [List.length_set]; omega), same]
            rfl
      · rw [count, ← writing]
        rfl

theorem afterWord_within {s : Shared} {r : Request} {sector word : Nat}
    (moving : Moving s r (256 * sector + (word + 1))) (here : sector < r.count)
    (inSector : word < 256) :
    Within (afterWord s r sector word).1 (afterWord s r sector word).2 := by
  have half : sectorSize / 2 = 256 := rfl
  unfold afterWord
  rw [half]
  split_ifs with more again writing
  · exact ⟨moving, here, more⟩
  · have last : 256 * sector + (word + 1) = 256 * (sector + 1) := by omega
    rw [last] at moving
    exact ⟨moving, again⟩
  · have last : 256 * sector + (word + 1) = 256 * r.count := by omega
    rw [last] at moving
    exact ⟨moving.toStarted, writing⟩
  · have last : 256 * sector + (word + 1) = 256 * r.count := by omega
    rw [last] at moving
    exact finish_within moving.logged (done_correct moving.toStarted)

theorem command_moving {s : Shared} {r : Request} (started : Started s r 0)
    (raised : Raised s.drive r) :
    Moving { s with drive := s.drive.command r.code } r 0 := by
  obtain ⟨⟨⟨⟨select, count⟩, low⟩, mid⟩, high⟩ := raised
  have address := address_eq started.sized.small select low mid high
  have sectors := sectors_eq started.sized.some started.sized.most count
  refine ⟨⟨started.sized, started.logged, ?_⟩, ?_⟩
  · have progress := started.progress
    unfold Progress Drive.command at *
    split_ifs at progress ⊢ <;> exact progress
  · have apart : ¬commandWriteSectors = commandReadSectors := by decide
    cases writing : r.writing with
    | true =>
        have code : r.code = commandWriteSectors := if_pos writing
        simp only [Drive.command, code, if_neg apart, if_true, address, sectors]
    | false =>
        have code : r.code = commandReadSectors := by
          rw [Request.code, if_neg (by rw [writing]; exact Bool.noConfusion)]
        simp only [Drive.command, code, if_true, address, sectors]

theorem call_within {s : Shared} {writing : Bool} {lba : BitVec 32} {buffer : List Byte}
    {s' : Shared} {p' : Place} (logged : Rest s) (small : lba.toNat < 2 ^ 28)
    (taken : next s .idle (.call writing lba buffer) = some (s', p')) : Within s' p' := by
  simp only [next] at taken
  split_ifs at taken with ragged empty big
  · obtain ⟨rfl, rfl⟩ := Prod.mk.inj (Option.some.inj taken)
    exact finish_within logged (failed_correct _ _ _)
  · obtain ⟨rfl, rfl⟩ := Prod.mk.inj (Option.some.inj taken)
    refine finish_within logged fun _ => ?_
    have nothing : buffer = [] := by
      simp only [Request.count, sectorSize] at ragged empty
      exact List.eq_nil_of_length_eq_zero (by omega)
    subst nothing
    cases writing with
    | true => exact (stored_nil _ _).symm
    | false => exact ⟨rfl, fun i impossible => absurd impossible (Nat.not_lt_zero i)⟩
  · obtain ⟨rfl, rfl⟩ := Prod.mk.inj (Option.some.inj taken)
    exact finish_within logged (failed_correct _ _ _)
  · obtain ⟨rfl, rfl⟩ := Prod.mk.inj (Option.some.inj taken)
    refine ⟨⟨?_, Nat.one_le_iff_ne_zero.mpr empty, Nat.not_lt.mp big, small⟩, logged, ?_⟩
    · simp only [Request.count, sectorSize] at ragged ⊢
      omega
    · unfold Progress
      split_ifs
      · exact (stored_nil _ _).symm
      · exact ⟨rfl, fun i impossible => absurd impossible (Nat.not_lt_zero i)⟩

/-- A call names sectors that 28 bits can number. -/
def Named : Ask → Prop
  | .call _ lba _ => lba.toNat < 2 ^ 28
  | .go _ _ => True

theorem next_within {s s' : Shared} {p p' : Place} {a : Ask} (within : Within s p)
    (named : Named a) (taken : next s p a = some (s', p')) : Within s' p' := by
  cases a with
  | call writing lba buffer =>
      cases p <;> first | exact call_within within named taken | simp [next] at taken
  | go status other =>
      cases p with
      | idle => simp [next] at taken
      | selecting r =>
          obtain ⟨rfl, rfl⟩ := Prod.mk.inj (Option.some.inj taken)
          exact ⟨⟨within.sized, within.logged, within.progress⟩, rfl⟩
      | settling r left =>
          obtain ⟨started, select⟩ := within
          cases left with
          | zero =>
              obtain ⟨rfl, rfl⟩ := Prod.mk.inj (Option.some.inj taken)
              exact ⟨⟨started.sized, started.logged, started.progress⟩, select, rfl⟩
          | succ left =>
              obtain ⟨rfl, rfl⟩ := Prod.mk.inj (Option.some.inj taken)
              exact ⟨started, select⟩
      | lowering r =>
          obtain ⟨rfl, rfl⟩ := Prod.mk.inj (Option.some.inj taken)
          obtain ⟨started, counted⟩ := within
          exact ⟨⟨started.sized, started.logged, started.progress⟩, counted, rfl⟩
      | middling r =>
          obtain ⟨rfl, rfl⟩ := Prod.mk.inj (Option.some.inj taken)
          obtain ⟨started, lowered⟩ := within
          exact ⟨⟨started.sized, started.logged, started.progress⟩, lowered, rfl⟩
      | raising r =>
          obtain ⟨rfl, rfl⟩ := Prod.mk.inj (Option.some.inj taken)
          obtain ⟨started, middled⟩ := within
          exact ⟨⟨started.sized, started.logged, started.progress⟩, middled, rfl⟩
      | commanding r =>
          obtain ⟨rfl, rfl⟩ := Prod.mk.inj (Option.some.inj taken)
          obtain ⟨started, raised⟩ := within
          exact ⟨command_moving started raised, started.sized.some⟩
      | polling r sector tries =>
          obtain ⟨moving, here⟩ := within
          simp only [next] at taken
          split at taken
          · obtain ⟨rfl, rfl⟩ := Prod.mk.inj (Option.some.inj taken)
            exact ⟨moving, here⟩
          · obtain ⟨rfl, rfl⟩ := Prod.mk.inj (Option.some.inj taken)
            exact finish_within moving.logged (failed_correct _ _ _)
          · rename_i answer _
            by_cases refuses : answer &&& statusDrq = 0
            · rw [if_pos refuses] at taken
              obtain ⟨rfl, rfl⟩ := Prod.mk.inj (Option.some.inj taken)
              exact finish_within moving.logged (failed_correct _ _ _)
            · rw [if_neg refuses] at taken
              obtain ⟨rfl, rfl⟩ := Prod.mk.inj (Option.some.inj taken)
              exact ⟨moving, here, by decide⟩
      | moving r sector word =>
          obtain ⟨moving, here, inSector⟩ := within
          have taken := Option.some.inj taken
          obtain ⟨moved, count⟩ := moveWord_moving other moving here inSector
          have after := afterWord_within moved (by rw [count]; exact here) inSector
          rwa [taken] at after
      | flushing r =>
          obtain ⟨rfl, rfl⟩ := Prod.mk.inj (Option.some.inj taken)
          obtain ⟨started, writing⟩ := within
          exact ⟨⟨started.sized, started.logged, started.progress⟩, writing⟩
      | flushPolling r tries =>
          obtain ⟨started, writing⟩ := within
          simp only [next] at taken
          split at taken
          · obtain ⟨rfl, rfl⟩ := Prod.mk.inj (Option.some.inj taken)
            exact ⟨started, writing⟩
          · obtain ⟨rfl, rfl⟩ := Prod.mk.inj (Option.some.inj taken)
            exact finish_within started.logged (failed_correct _ _ _)
          · obtain ⟨rfl, rfl⟩ := Prod.mk.inj (Option.some.inj taken)
            exact finish_within started.logged (done_correct started)

/-- No call has been made yet; the drive may be in any state. -/
def Quiet {ι : Type} (m : Machine ι Shared Place) : Prop :=
  (∀ t, m.places t = .idle) ∧ m.shared.log = []

/-- No tick switches tasks inside a transfer, and every call names sectors below `2^28`. -/
def Undisturbed {ι : Type} (m : Machine ι Shared Place) (e : ι × Ask) : Prop :=
  Alone inside m e ∧ Named e.2

/-- Undisturbed, every transfer that returns `Ok` is exact. -/
theorem transfers_exact {ι : Type} [DecidableEq ι] {m : Machine ι Shared Place}
    (reached : Reached (step next) Quiet Undisturbed m) : ∀ f ∈ m.shared.log, f.Correct := by
  have kept : Kept inside Rest Within m := by
    refine alone_kept (fun s p a s' p' held named taken => ?_) (fun m quiet => ?_)
      (fun m e undisturbed => undisturbed) reached
    · exact (held_iff s' p').mpr (next_within ((held_iff s p).mp held) named taken)
    · refine ⟨fun t => by rw [quiet.1 t]; rfl, fun f member => ?_⟩
      rw [quiet.2] at member
      exact absurd member List.not_mem_nil
  rcases kept with ⟨t, -, within, -⟩ | ⟨-, logged⟩
  · cases place : m.places t <;> rw [place] at within <;> simp only [Within] at within
    case idle => exact within
    case selecting => exact within.logged
    all_goals exact within.1.logged
  · exact logged

/-- A drive whose sectors hold their own numbers. -/
def numbered : Drive := ⟨0, 0, 0, 0, 0, fun a => BitVec.ofNat 8 (a / sectorSize), none⟩

def quietDrive (ι : Type) : Machine ι Shared Place := ⟨⟨numbered, []⟩, fun _ => .idle⟩

/-- What the drive answers when it has a word ready. -/
def willing : Ask := .go statusDrq 0

/-- The port accesses of a call up to its command byte. -/
def naming (lba : BitVec 32) : List Ask :=
  .call false lba (List.replicate 512 0xFF) :: List.replicate 9 willing

section Returning

/-- What a word of the first sector, and every later one, leaves as it is. -/
structure Carried (word : Nat) (s : Shared) (r : Request) (s' : Shared) (r' : Request) : Prop where
  log : s'.log = s.log
  writing : r'.writing = r.writing
  lba : r'.lba = r.lba
  length : r'.buffer.length = r.buffer.length
  contents : r.writing = false → s'.drive.contents = s.drive.contents
  first : 0 < word → r'.buffer.getD 0 0 = r.buffer.getD 0 0

theorem dataIn_contents (d : Drive) (other : BitVec 16) :
    (d.dataIn other).2.contents = d.contents := by
  unfold Drive.dataIn
  cases d.transfer with
  | none => rfl
  | some t =>
      dsimp only
      split_ifs <;> rfl

theorem moveWord_carried (s : Shared) (r : Request) (word : Nat) (other : BitVec 16) :
    Carried word s r (moveWord s r 0 word other).1 (moveWord s r 0 word other).2 := by
  unfold moveWord
  split_ifs with writing
  · exact ⟨rfl, rfl, rfl, rfl, fun reading => absurd (writing.symm.trans reading) Bool.noConfusion,
      fun _ => rfl⟩
  · refine ⟨rfl, rfl, rfl, ?_, fun _ => dataIn_contents _ _, fun later => ?_⟩
    · simp only [Request.put, List.length_set]
    · simp only [Request.put, List.getD_eq_getElem?_getD]
      rw [List.getElem?_set_ne (by omega), List.getElem?_set_ne (by omega)]

theorem words_run {r : Request} {word k : Nat} (room : word + k < 256) (s : Shared) :
    ∃ s' r', runOne next (s, .moving r 0 word) (List.replicate k willing) =
        some (s', .moving r' 0 (word + k)) ∧ Carried word s r s' r' := by
  induction k generalizing s r word with
  | zero => exact ⟨s, r, rfl, rfl, rfl, rfl, rfl, fun _ => rfl, fun _ => rfl⟩
  | succ k ih =>
      have here := moveWord_carried s r word 0
      obtain ⟨s', r', run, rest⟩ := ih (r := (moveWord s r 0 word 0).2)
        (show word + 1 + k < 256 by omega) (moveWord s r 0 word 0).1
      have more : word + 1 < sectorSize / 2 := show word + 1 < 256 by omega
      refine ⟨s', r', ?_, rest.log.trans here.log, rest.writing.trans here.writing,
        rest.lba.trans here.lba, rest.length.trans here.length, fun reading => ?_, fun later => ?_⟩
      · rw [List.replicate_succ, runOne]
        show (next s (.moving r 0 word) (.go statusDrq 0)).bind _ = _
        rw [next, afterWord, if_pos more, Option.bind_some, run]
        congr 3
        omega
      · exact (rest.contents (here.writing.trans reading)).trans (here.contents reading)
      · exact (rest.first (Nat.succ_pos word)).trans (here.first later)

theorem last_word (s : Shared) {r : Request} (one : r.buffer.length = 512) :
    next s (.moving r 0 255) willing =
      some (if r.writing then ((moveWord s r 0 255 0).1, .flushing (moveWord s r 0 255 0).2)
        else finish (moveWord s r 0 255 0).1 (moveWord s r 0 255 0).2 (.ok ())) := by
  have carried := moveWord_carried s r 255 0
  have single : (moveWord s r 0 255 0).2.count = 1 := by
    rw [Request.count, carried.length, one]
    rfl
  show some (afterWord _ _ 0 255) = _
  rw [afterWord, if_neg (by decide), single, if_neg (by decide), carried.writing]

/-- The port accesses of a call for one sector, when the drive is always ready. -/
def transfer (writing : Bool) (lba : BitVec 32) (buffer : List Byte) : List Ask :=
  .call writing lba buffer :: List.replicate 11 willing ++ List.replicate 255 willing ++
    List.replicate (if writing then 3 else 1) willing

theorem named_run (s : Shared) (writing : Bool) (lba : BitVec 32) {buffer : List Byte}
    (one : buffer.length = 512) :
    ∃ s', runOne next (s, .idle) (.call writing lba buffer :: List.replicate 11 willing) =
      some (s', .moving ⟨writing, lba, buffer, s.drive.contents⟩ 0 0) ∧ s'.log = s.log := by
  have whole : ¬buffer.length % sectorSize ≠ 0 := by rw [one]; decide
  have single : (⟨writing, lba, buffer, s.drive.contents⟩ : Request).count = 1 := by
    rw [Request.count, one]
    rfl
  have called : next s .idle (.call writing lba buffer) =
      some (s, .selecting ⟨writing, lba, buffer, s.drive.contents⟩) := by
    simp only [next, if_neg whole, single, Nat.reduceLT, if_false, one_ne_zero]
  rw [runOne, called]
  exact ⟨_, rfl, rfl⟩

theorem transfer_returns (s : Shared) (writing : Bool) (lba : BitVec 32) {buffer : List Byte}
    (one : buffer.length = 512) :
    ∃ s' f, runOne next (s, .idle) (transfer writing lba buffer) = some (s', .idle) ∧
      s'.log = s.log ++ [f] ∧ f.request.writing = writing ∧ f.request.lba = lba ∧
      f.result = .ok () := by
  obtain ⟨s₁, named, log₁⟩ := named_run s writing lba one
  obtain ⟨s₂, r, words, carried⟩ := words_run
    (r := ⟨writing, lba, buffer, s.drive.contents⟩) (show 0 + 255 < 256 by decide) s₁
  have carried' := moveWord_carried s₂ r 255 0
  have last := last_word s₂ (r := r) (carried.length.trans one)
  rw [carried.writing] at last
  have log : (moveWord s₂ r 0 255 0).1.log = s.log := carried'.log.trans (carried.log.trans log₁)
  have direction := carried'.writing.trans carried.writing
  have place := carried'.lba.trans carried.lba
  rw [transfer, runOne_append, runOne_append, named, Option.bind_some, words, Option.bind_some]
  cases writing with
  | false =>
      refine ⟨(finish (moveWord s₂ r 0 255 0).1 (moveWord s₂ r 0 255 0).2 (.ok ())).1,
        ⟨(moveWord s₂ r 0 255 0).2, .ok (), (moveWord s₂ r 0 255 0).1.drive.contents⟩, ?_,
        congrArg (· ++ [_]) log, direction, place, rfl⟩
      show (next s₂ (.moving r 0 (0 + 255)) willing).bind _ = _
      rw [Nat.zero_add, last]
      rfl
  | true =>
      refine ⟨(finish { (moveWord s₂ r 0 255 0).1 with
          drive := (moveWord s₂ r 0 255 0).1.drive.command commandFlushCache }
          (moveWord s₂ r 0 255 0).2 (.ok ())).1, ⟨(moveWord s₂ r 0 255 0).2, .ok (),
        ((moveWord s₂ r 0 255 0).1.drive.command commandFlushCache).contents⟩, ?_,
        congrArg (· ++ [_]) log, direction, place, rfl⟩
      show (next s₂ (.moving r 0 (0 + 255)) willing).bind _ = _
      rw [Nat.zero_add, last]
      rfl

end Returning

/-- One task writes sector three, and after that the other one reads it. -/
theorem transfers_exact_inTurn : ∃ m : Machine (Fin 2) Shared Place,
    Reached (step next) Quiet Undisturbed m ∧
      m.shared.log.map (fun f => (f.request.writing, f.request.lba)) = [(true, 3), (false, 3)] ∧
      ∀ f ∈ m.shared.log, f.result = .ok () ∧ f.Correct := by
  have fair : ∀ (t : Fin 2) (writing : Bool) (buffer : List Byte),
      ∀ a ∈ transfer writing 3 buffer, ∀ m : Machine (Fin 2) Shared Place,
        Alone inside m (t, a) → Undisturbed m (t, a) := by
    intro t writing buffer a member m alone
    refine ⟨alone, ?_⟩
    simp only [transfer, List.cons_append, List.mem_cons, List.mem_append, List.mem_replicate]
      at member
    rcases member with rfl | (⟨-, rfl⟩ | ⟨-, rfl⟩) | ⟨-, rfl⟩
    · exact (by decide : (3 : BitVec 32).toNat < 2 ^ 28)
    all_goals trivial
  obtain ⟨s₁, f₁, wrote, log₁, writing₁, lba₁, ok₁⟩ := transfer_returns (quietDrive (Fin 2)).shared
    true 3 (List.length_replicate (a := (7 : Byte)) (n := 512))
  have begun : Reached (step next) Quiet Undisturbed (quietDrive (Fin 2)) :=
    .start ⟨fun _ => rfl, rfl⟩
  have first := reached_alone inside (t := 0) begun (fun _ _ => rfl) (fair 0 true _) wrote
  have rest : ∀ t, (Function.update (fun _ => Place.idle) (0 : Fin 2) Place.idle) t = .idle :=
    fun t => congrFun (Function.update_eq_self 0 fun _ => Place.idle) t
  obtain ⟨s₂, f₂, found, log₂, writing₂, lba₂, ok₂⟩ := transfer_returns s₁ false 3
    (List.length_replicate (a := (0xFF : Byte)) (n := 512))
  have second := reached_alone inside (t := 1) first (fun u _ => congrArg inside (rest u))
    (fair 1 false _) ((congrArg (fun p => runOne next (s₁, p) _) (rest 1)).trans found)
  have both : s₂.log = [f₁, f₂] := by
    rw [log₂, log₁]
    rfl
  refine ⟨_, second, ?_, fun f member => ⟨?_, transfers_exact second f member⟩⟩
  · show s₂.log.map _ = _
    rw [both, List.map_cons, List.map_singleton, writing₁, lba₁, writing₂, lba₂]
  · have among : f ∈ s₂.log := member
    rw [both, List.mem_pair] at among
    rcases among with rfl | rfl
    · exact ok₁
    · exact ok₂

/-- A tick before the command byte: the other task names its own sector in the registers,
and the read returns that sector's bytes with `Ok`. -/
theorem read_mixed :
    ∃ m : Machine (Fin 2) Shared Place,
      Reached (step next) Quiet (fun _ _ => True) m ∧ ∃ f ∈ m.shared.log, ¬f.Correct := by
  have run : (runAll (step next) (quietDrive (Fin 2))
      ((naming 0).map (fun a => (0, a)) ++ (naming 1).map (fun a => (1, a)) ++
        List.replicate 3 (0, willing))).any (fun m =>
          match m.places 0 with
          | .moving r 0 1 => decide (r.writing = false ∧ r.buffer.length = 512 ∧
              r.buffer.getD 0 0 ≠ m.shared.drive.contents r.first)
          | _ => false) = true := by
    decide +kernel
  obtain ⟨m, begun, found⟩ := Reached.freely Quiet ⟨fun _ => rfl, rfl⟩ run
  split at found
  · rename_i r place
    obtain ⟨reading, one, apart⟩ := of_decide_eq_true found
    obtain ⟨s, r', words, carried⟩ := words_run (r := r) (show 1 + 254 < 256 by decide) m.shared
    have carried' := moveWord_carried s r' 255 0
    have last := last_word s (r := r') (carried.length.trans one)
    rw [carried.writing, reading, if_neg Bool.false_ne_true] at last
    have rest : runOne next (m.shared, m.places 0) (List.replicate 254 willing ++ [willing]) =
        some (finish (moveWord s r' 0 255 0).1 (moveWord s r' 0 255 0).2 (.ok ())) := by
      rw [place, runOne_append, words, Option.bind_some]
      show (next s (.moving r' 0 255) willing).bind _ = _
      rw [last]
      rfl
    refine ⟨_, reached_alone (fun _ => false) begun (fun _ _ => rfl) (fun _ _ _ _ => trivial) rest,
      _, List.mem_append_right _ List.mem_cons_self, fun correct => ?_⟩
    have direction := carried'.writing.trans (carried.writing.trans reading)
    have exact := correct rfl
    rw [if_neg (by rw [direction]; exact Bool.noConfusion)] at exact
    have byte := exact.2 0 (by rw [carried'.length, carried.length, one]; decide)
    refine apart ((carried.first Nat.one_pos).symm.trans ?_)
    have place' : (moveWord s r' 0 255 0).2.first = r.first := by
      rw [Request.first, carried'.lba, carried.lba, Request.first]
    rw [← carried'.first (by decide), ← carried.contents reading,
      ← carried'.contents (carried.writing.trans reading), ← place']
    exact byte
  · exact absurd found Bool.false_ne_true

end FiveAM.Memory.DiskSharing
