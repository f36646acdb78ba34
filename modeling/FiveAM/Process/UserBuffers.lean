/- GID: FiveAM/Process/UserBuffers
   source: kernel/src/syscall.rs, kernel/src/pipe.rs, kernel/src/interrupts.rs
   digest: What the kernel stores in a caller's buffer, and when it may store there. -/

import FiveAM.Memory.Conservation
import FiveAM.Memory.KernelStores
import FiveAM.Memory.PointerChecks
import FiveAM.Process.Effects

set_option autoImplicit false
set_option relaxedAutoImplicit false

namespace FiveAM.Process.UserBuffers

open FiveAM.Process.TaskTable FiveAM.Process.Machine FiveAM.Process.Pipes
open FiveAM.Process.Syscalls (wakeIfMoved popBytes_length readOnce_length)
open FiveAM.Process.Effects (addDescriptor_some addDescriptor_none)
open FiveAM.Memory.Entries FiveAM.Memory.Ownership
open FiveAM.Memory.Frames (Paging)
open FiveAM.Memory.PageTables (isUserAccessible isSwappedEntry)
open FiveAM.Memory.Eviction (SlotsHeld)
open FiveAM.Memory.Conservation (Spares Sane booted_sane reached_sane sixFrames)
open FiveAM.Memory.FrameOwnership (Usable)
open FiveAM.Memory.KernelStores FiveAM.Memory.PointerChecks
open FiveAM.Lib.Runs

/-- The memory at some moment, with the books that hold of it. The space in use is a live
one. -/
structure Moment where
  paging : Paging
  managed : Finset Word
  live : Finset Word
  hand : List Word
  chain : List Word
  books : Books paging managed live hand chain
  held : SlotsHeld paging live
  member : paging.cr3 ∈ live

/-- What a call meets: the tables when its pointer is checked, the kernel as it starts and
as it wakes with something to take, the bytes typed by then, and the memory just before
each byte is stored, whatever others have done since the byte before. -/
structure Caller where
  checked : Paging
  kernel : Kernel
  woken : Kernel
  typed : List (BitVec 8)
  moments : Nat → Moment

/-- `SYS_READ` and `SYS_PIPE`, with the arguments of the program. -/
inductive Call where
  | read (fd pointer length : Word)
  | makePipe (pointer : Word)

def Call.pointer : Call → Word
  | .read _ pointer _ => pointer
  | .makePipe pointer => pointer

def Call.length : Call → Word
  | .read _ _ length => length
  | .makePipe _ => 16

inductive Course where
  /-- The check of the pointer does not end. -/
  | never
  | waits
  | answers (result : Word) (kernel : Kernel) (typed : List (BitVec 8))
  /-- Bytes are stored, and then the call answers. -/
  | delivers (bytes : List (BitVec 8)) (result : Word) (kernel : Kernel)
      (typed : List (BitVec 8))

def userSlice (s : Paging) (pointer length : Word) : Option Bool :=
  if 4096 < length then some false else isUserAccessible s pointer length

def read (c : Caller) (fd pointer length : Word) : Course :=
  match userSlice c.checked pointer length with
  | none => .never
  | some false => .answers failure c.kernel c.typed
  | some true =>
      match descriptor c.kernel c.kernel.current fd.toNat with
      | .pipeRead pipe =>
          match readOnce (c.woken.pipes pipe) length.toNat with
          | (none, _) => .waits
          | (some bytes, after) =>
              .delivers bytes (BitVec.ofNat 64 bytes.length)
                (wakeIfMoved (setPipe c.woken pipe after) (writableChannel pipe) bytes.length)
                c.typed
      | .console =>
          if length = 0 then .answers 0 c.kernel c.typed
          else if c.typed = [] then .waits
          else
            let bytes := c.typed.take length.toNat
            .delivers bytes (BitVec.ofNat 64 bytes.length) c.woken (c.typed.drop length.toNat)
      | .pipeWrite _ => .answers failure c.kernel c.typed
      | .free => .answers failure c.kernel c.typed

def bytesOf (w : Word) : List (BitVec 8) :=
  (List.range 8).map fun i => w.extractLsb' (8 * i) 8

/-- `pipe(&mut [read_fd, write_fd])`. -/
def makePipe (c : Caller) (pointer : Word) : Course :=
  match isUserAccessible c.checked pointer 16 with
  | none => .never
  | some false => .answers failure c.kernel c.typed
  | some true =>
      match create c.kernel with
      | (none, k) => .answers failure k c.typed
      | (some pipe, k) =>
          let id := k.current
          match addDescriptor k id (.pipeRead pipe) with
          | (none, k) => .answers failure (closeWriter (closeReader k pipe) pipe) c.typed
          | (some readFd, k) =>
              match addDescriptor k id (.pipeWrite pipe) with
              | (none, k) =>
                  .answers failure (closeWriter (closeDescriptor k id readFd).2 pipe) c.typed
              | (some writeFd, k) =>
                  .delivers (bytesOf (BitVec.ofNat 64 readFd.val) ++
                    bytesOf (BitVec.ofNat 64 writeFd.val)) 0 k c.typed

def course (c : Caller) : Call → Course
  | .read fd pointer length => read c fd pointer length
  | .makePipe pointer => makePipe c pointer

inductive Ending where
  | done
  | halted
  | unfinished

/-- The bytes are stored one after the other, from number `n` on. -/
def storeAll (c : Caller) (pointer : Word) (attempts : Nat) : Nat → List (BitVec 8) → Ending
  | _, [] => .done
  | n, byte :: rest =>
      let task := c.kernel.tasks c.kernel.current
      match storeByte task.stackTop task.stackLimit (pointer + BitVec.ofNat 64 n) byte attempts
          (c.moments n).paging with
      | .done _ => storeAll c pointer attempts (n + 1) rest
      | .halted => .halted
      | .unfinished => .unfinished

/-- How a call ends, with so many attempts at each store. -/
inductive Reply where
  | answers (result : Word) (kernel : Kernel) (typed : List (BitVec 8))
  | waits
  | halted
  | unfinished

def serve (c : Caller) (call : Call) (attempts : Nat) : Reply :=
  match course c call with
  | .never => .unfinished
  | .waits => .waits
  | .answers result k typed => .answers result k typed
  | .delivers bytes result k typed =>
      match storeAll c call.pointer attempts 0 bytes with
      | .done => .answers result k typed
      | .halted => .halted
      | .unfinished => .unfinished

def stored (c : Caller) (call : Call) : List (BitVec 8) :=
  match course c call with
  | .delivers bytes _ _ _ => bytes
  | .never => []
  | .waits => []
  | .answers _ _ _ => []

/-- No descriptor is gone or new, no pipe is, and no byte of a pipe or of the console. -/
structure Untouched (c : Caller) (k : Kernel) (typed : List (BitVec 8)) : Prop where
  files : ∀ id, (k.tasks id).files = (c.kernel.tasks id).files
  used : ∀ p, (k.pipes p).used = (c.kernel.pipes p).used
  bytes : ∀ p, (c.kernel.pipes p).used = true → k.pipes p = c.kernel.pipes p
  typed : typed = c.typed

/-- Every byte is stored where the program may write, a call that fails takes nothing, and
no store stops the machine. -/
structure Proper (c : Caller) (call : Call) : Prop where
  lawful : ∀ n, n < (stored c call).length →
    Lawful (c.moments n).paging (call.pointer + BitVec.ofNat 64 n)
  refused : ∀ attempts k typed, serve c call attempts = .answers failure k typed →
    Untouched c k typed
  safe : ∀ attempts, serve c call attempts ≠ .halted
  ends : ∃ attempts, serve c call attempts ≠ .unfinished

/-- The range reaches the last page there is, and everything below its end can be read. -/
def Endless (s : Paging) (address len : Word) : Prop :=
  address.toNat + len.toNat < 2 ^ 64 ∧ 2 ^ 64 - pageSize < address.toNat + len.toNat ∧
    Readable s 0 (address.toNat + len.toNat)

/-- How many bytes there are for a call whose pointer is accepted: those in the pipe or
typed, as far as there is room, or two words where there is a pipe and two descriptors. -/
def available (c : Caller) : Call → Nat
  | .read fd _ length =>
      match descriptor c.kernel c.kernel.current fd.toNat with
      | .pipeRead pipe => min (c.woken.pipes pipe).len length.toNat
      | .console => min c.typed.length length.toNat
      | .pipeWrite _ => 0
      | .free => 0
  | .makePipe _ =>
      if (∃ p, (c.kernel.pipes p).used = false) ∧
          2 ≤ (Finset.univ.filter fun fd =>
            (c.kernel.tasks c.kernel.current).files fd = .free).card then 16 else 0

/-- The check ends, and where it accepts the program may write each byte that is there, at
the moment it is stored. -/
structure Writable (c : Caller) (call : Call) : Prop where
  bounded : call.length ≤ 4096 → ¬Endless c.checked call.pointer call.length
  open' : call.length ≤ 4096 → isUserAccessible c.checked call.pointer call.length = some true →
    ∀ n, n < available c call → Lawful (c.moments n).paging (call.pointer + BitVec.ofNat 64 n)

section Checking

variable {s : Paging} {pointer length : Word}

theorem endless_iff (s : Paging) (address len : Word) :
    isUserAccessible s address len = none ↔ Endless s address len := by
  have ends : ∀ {answer}, (∃ rounds, isUserAccessibleWithin s rounds address len = some answer) →
      isUserAccessible s address len ≠ none := by
    intro answer settled none'
    rw [(isUserAccessible_iff s address len answer).mpr settled] at none'
    cases none'
  by_cases fits : address.toNat + len.toNat < 2 ^ 64
  swap
  · refine iff_of_false (ends ⟨0, if_pos (Nat.not_lt.mp fits)⟩) fun endless => fits endless.1
  cases checks s fits with
  | refused closed settled =>
      refine iff_of_false (ends settled) fun endless => closed ?_
      exact fun page aligned _ below => endless.2.2 page aligned (Nat.zero_le _) below
  | accepted open' inside settled =>
      exact iff_of_false (ends settled) fun endless => Nat.not_lt.mpr inside endless.2.1
  | wrapped open' outside closed settled =>
      exact iff_of_false (ends settled) fun endless => closed endless.2.2
  | never open' outside open'' endless =>
      refine iff_of_true ?_ ⟨fits, outside, open''⟩
      by_contra some'
      obtain ⟨answer, given⟩ := Option.ne_none_iff_exists'.mp some'
      obtain ⟨rounds, settled⟩ := (isUserAccessible_iff s address len answer).mp given
      rw [endless rounds] at settled
      cases settled

def Accepted (c : Caller) (call : Call) : Prop :=
  call.length ≤ 4096 ∧ isUserAccessible c.checked call.pointer call.length = some true

theorem userSlice_true : userSlice s pointer length = some true ↔
    length ≤ 4096 ∧ isUserAccessible s pointer length = some true := by
  unfold userSlice
  by_cases long : 4096 < length
  · rw [if_pos long]
    exact iff_of_false (fun refused => nomatch refused) fun both =>
      absurd (BitVec.lt_def.mp long) (Nat.not_lt.mpr (BitVec.le_def.mp both.1))
  · rw [if_neg long]
    exact (and_iff_right (BitVec.not_lt.mp long)).symm

theorem userSlice_none : userSlice s pointer length = none ↔
    length ≤ 4096 ∧ Endless s pointer length := by
  unfold userSlice
  by_cases long : 4096 < length
  · rw [if_pos long]
    exact iff_of_false (fun refused => nomatch refused) fun both =>
      absurd (BitVec.lt_def.mp long) (Nat.not_lt.mpr (BitVec.le_def.mp both.1))
  · rw [if_neg long, endless_iff]
    exact (and_iff_right (BitVec.not_lt.mp long)).symm

end Checking

section Untaken

variable {c : Caller} {k k' : Kernel} {id : TaskId} {p : PipeId} {d : Descriptor}
  {fd : Fin maxFiles}

theorem Untouched.refl (c : Caller) : Untouched c c.kernel c.typed :=
  ⟨fun _ => rfl, fun _ => rfl, fun _ _ => rfl, rfl⟩

theorem wakeAll_files (k : Kernel) (channel : Word) (id : TaskId) :
    ((k.wakeAll channel).tasks id).files = (k.tasks id).files := by
  unfold Kernel.wakeAll
  dsimp only
  split_ifs
  · rfl
  · rfl

theorem givenBack_pipes (k : Kernel) (p : PipeId) (made : (k.pipes p).readers = 1 ∧
    (k.pipes p).writers = 1) :
    ((closeWriter (closeReader k p) p).pipes p).used = false ∧
      ∀ q, q ≠ p → (closeWriter (closeReader k p) p).pipes q = k.pipes q := by
  unfold closeWriter closeReader setPipe Kernel.wakeAll
  refine ⟨?_, fun q other => ?_⟩
  · simp [made]
  · simp [other]

theorem givenBack_files (k : Kernel) (p : PipeId) (id : TaskId) :
    ((closeWriter (closeReader k p) p).tasks id).files = (k.tasks id).files := by
  unfold closeWriter closeReader
  rw [wakeAll_files]
  exact wakeAll_files _ _ _

theorem create_some (made : create k = (some p, k')) : (k.pipes p).used = false ∧
    k' = setPipe k p { Pipe.empty with used := true, readers := 1, writers := 1 } := by
  unfold create at made
  split at made
  · cases made
  · rename_i found
    cases made
    exact ⟨by simpa using List.find?_some found, rfl⟩

theorem create_none (full : create k = (none, k')) : k' = k ∧ ∀ p, (k.pipes p).used ≠ false := by
  unfold create at full
  split at full
  · rename_i nowhere
    cases full
    refine ⟨rfl, fun p => ?_⟩
    simpa using List.find?_eq_none.mp nowhere p (List.mem_finRange p)
  · cases full

theorem addDescriptor_full (full : addDescriptor k id d = (none, k')) (fd : Fin maxFiles) :
    (k.tasks id).files fd ≠ .free := by
  unfold addDescriptor at full
  split at full
  · rename_i nowhere
    simpa using List.find?_eq_none.mp nowhere fd (List.mem_finRange fd)
  · cases full

theorem givenBack (unused : (c.kernel.pipes p).used = false)
    (made : k.pipes = (setPipe c.kernel p
      { Pipe.empty with used := true, readers := 1, writers := 1 }).pipes)
    (files : ∀ id, (k.tasks id).files = (c.kernel.tasks id).files) :
    Untouched c (closeWriter (closeReader k p) p) c.typed := by
  have here : k.pipes p = { Pipe.empty with used := true, readers := 1, writers := 1 } := by
    rw [made]
    exact Function.update_self _ _ _
  have others : ∀ q, q ≠ p → k.pipes q = c.kernel.pipes q := by
    intro q other
    rw [made]
    exact Function.update_of_ne other _ _
  obtain ⟨closed, kept⟩ := givenBack_pipes k p (by rw [here]; exact ⟨rfl, rfl⟩)
  refine ⟨fun id => (givenBack_files k p id).trans (files id), fun q => ?_, fun q open' => ?_, rfl⟩
  · by_cases same : q = p
    · rw [same, closed, unused]
    · rw [kept q same, others q same]
  · have other : q ≠ p := fun same => by
      rw [same, unused] at open'
      cases open'
    rw [kept q other, others q other]

end Untaken

section Courses

variable {c : Caller} {call : Call}

inductive Goes (c : Caller) (call : Call) : Course → Prop where
  | never (short : call.length ≤ 4096) (endless : Endless c.checked call.pointer call.length) :
      Goes c call .never
  | waits (nothing : available c call = 0) : Goes c call .waits
  | answers {result : Word} {k : Kernel} {typed : List (BitVec 8)}
      (nothing : Accepted c call → available c call = 0) (untouched : Untouched c k typed) :
      Goes c call (.answers result k typed)
  | delivers {bytes : List (BitVec 8)} {result : Word} {k : Kernel} {typed : List (BitVec 8)}
      (accepted : Accepted c call) (count : bytes.length = available c call)
      (succeeds : result ≠ failure) : Goes c call (.delivers bytes result k typed)

private theorem count_succeeds {n : Nat} (short : n ≤ 4096) : BitVec.ofNat 64 n ≠ failure := by
  intro same
  have values := congrArg BitVec.toNat same
  rw [BitVec.toNat_ofNat] at values
  unfold Pipes.failure at values
  simp only [BitVec.toNat_allOnes] at values
  omega

theorem readOnce_available (pipe : Pipe) (room : Nat) :
    match (readOnce pipe room).1 with
    | none => min pipe.len room = 0
    | some bytes => bytes.length = min pipe.len room := by
  unfold readOnce
  split_ifs with empty
  · simp [empty]
  · simp [empty]
  · exact popBytes_length pipe _

private theorem read_goes (c : Caller) (fd pointer length : Word) :
    Goes c (.read fd pointer length) (read c fd pointer length) := by
  unfold read
  cases sliced : userSlice c.checked pointer length with
  | none =>
      obtain ⟨short, endless⟩ := userSlice_none.mp sliced
      exact .never short endless
  | some allowed =>
      cases allowed with
      | false =>
          refine .answers (fun accepted => ?_) (.refl c)
          have other : userSlice c.checked pointer length = some true := userSlice_true.mpr accepted
          rw [sliced] at other
          cases other
      | true =>
          have accepted := userSlice_true.mp sliced
          have short : length.toNat ≤ 4096 := BitVec.le_def.mp accepted.1
          dsimp only
          cases held : descriptor c.kernel c.kernel.current fd.toNat with
          | pipeRead pipe =>
              have count := readOnce_available (c.woken.pipes pipe) length.toNat
              have there : available c (.read fd pointer length) =
                  min (c.woken.pipes pipe).len length.toNat := by
                simp only [available, held]
              dsimp only
              generalize readOnce (c.woken.pipes pipe) length.toNat = taken at count ⊢
              obtain ⟨_ | bytes, after⟩ := taken
              · exact .waits (there.trans count)
              · refine .delivers accepted (count.trans there.symm) (count_succeeds ?_)
                dsimp only at count
                omega
          | console =>
              have there : available c (.read fd pointer length) =
                  min c.typed.length length.toNat := by
                simp only [available, held]
              dsimp only
              split_ifs with empty none'
              · refine .answers (fun _ => ?_) (.refl c)
                rw [there, empty]
                exact Nat.min_zero _
              · refine .waits ?_
                rw [there, none']
                exact Nat.zero_min _
              · have fits : (c.typed.take length.toNat).length = min c.typed.length length.toNat := by
                  rw [List.length_take, Nat.min_comm]
                refine .delivers accepted (fits.trans there.symm) (count_succeeds ?_)
                omega
          | pipeWrite pipe =>
              refine .answers (fun _ => ?_) (.refl c)
              simp only [available, held]
          | free =>
              refine .answers (fun _ => ?_) (.refl c)
              simp only [available, held]

private theorem bytesOf_length (w : Word) : (bytesOf w).length = 8 := by
  simp [bytesOf]

private theorem makePipe_goes (c : Caller) (pointer : Word) :
    Goes c (.makePipe pointer) (makePipe c pointer) := by
  unfold makePipe
  cases allowed : isUserAccessible c.checked pointer 16 with
  | none => exact .never (by decide : (16 : Word) ≤ 4096) ((endless_iff _ _ _).mp allowed)
  | some allowed' =>
  cases allowed' with
  | false =>
      refine .answers (fun accepted => ?_) (.refl c)
      have other : isUserAccessible c.checked pointer 16 = some true := accepted.2
      rw [allowed] at other
      cases other
  | true =>
  have accepted : Accepted c (.makePipe pointer) := ⟨(by decide : (16 : Word) ≤ 4096), allowed⟩
  dsimp only
  cases made : create c.kernel with
  | mk pipe k₁ =>
  cases pipe with
  | none =>
      obtain ⟨rfl, used⟩ := create_none made
      refine .answers (fun _ => if_neg ?_) (.refl c)
      rintro ⟨⟨p, unused⟩, -⟩
      exact used p unused
  | some p =>
  obtain ⟨unused, made'⟩ := create_some made
  have current : k₁.current = c.kernel.current := by rw [made']; rfl
  have files₁ : ∀ id, (k₁.tasks id).files = (c.kernel.tasks id).files := fun id => by
    rw [made']
    rfl
  dsimp only
  cases readEnd : addDescriptor k₁ k₁.current (.pipeRead p) with
  | mk readFd k₂ =>
  cases readFd with
  | none =>
      have full := addDescriptor_full readEnd
      obtain rfl := addDescriptor_none readEnd
      refine .answers (fun _ => if_neg ?_) (givenBack unused (by rw [made']) files₁)
      rintro ⟨-, two⟩
      obtain ⟨fd, free⟩ := Finset.card_pos.mp (Nat.lt_of_lt_of_le Nat.two_pos two)
      refine full fd ?_
      rw [current, files₁]
      exact (Finset.mem_filter.mp free).2
  | some fd =>
  obtain ⟨free, added⟩ := addDescriptor_some readEnd
  rw [current] at free added
  rw [files₁] at free
  have files₂ : (k₂.tasks c.kernel.current).files =
      Function.update (c.kernel.tasks c.kernel.current).files fd (.pipeRead p) := by
    rw [added]
    unfold setFile Kernel.setTask
    simp only [Function.update_self]
    rw [files₁]
  dsimp only
  rw [current]
  cases writeEnd : addDescriptor k₂ c.kernel.current (.pipeWrite p) with
  | mk writeFd k₃ =>
  cases writeFd with
  | none =>
      have full := addDescriptor_full writeEnd
      obtain rfl := addDescriptor_none writeEnd
      refine .answers (fun _ => if_neg ?_) ?_
      · rintro ⟨-, two⟩
        refine absurd two (Nat.not_le.mpr (Nat.lt_succ_of_le ?_))
        refine (Finset.card_le_card (t := {fd}) fun fd' free' => ?_).trans
          (Finset.card_singleton fd).le
        by_contra other
        refine full fd' ?_
        rw [files₂, Function.update_of_ne (fun same => other (Finset.mem_singleton.mpr same))]
        exact (Finset.mem_filter.mp free').2
      · have back : closeDescriptor k₃ c.kernel.current fd.val =
            (true, closeReader (setFile k₃ c.kernel.current fd .free) p) := by
          unfold closeDescriptor
          rw [dif_pos fd.isLt, files₂, Function.update_self]
          rfl
        rw [back]
        refine givenBack unused ?_ fun id => ?_
        · rw [added, made']
          rfl
        · unfold setFile Kernel.setTask
          by_cases same : id = c.kernel.current
          · rw [same]
            simp only [Function.update_self]
            rw [files₂, Function.update_idem, ← free, Function.update_eq_self]
          · simp only [Function.update_of_ne same]
            rw [added]
            unfold setFile Kernel.setTask
            simp only [Function.update_of_ne same]
            exact files₁ id
  | some fd' =>
      obtain ⟨free', -⟩ := addDescriptor_some writeEnd
      have two : 2 ≤ (Finset.univ.filter fun fd =>
          (c.kernel.tasks c.kernel.current).files fd = .free).card := by
        have apart : fd' ≠ fd := fun same => by
          rw [files₂, same, Function.update_self] at free'
          cases free'
        rw [files₂, Function.update_of_ne apart] at free'
        exact Finset.one_lt_card.mpr ⟨fd', Finset.mem_filter.mpr ⟨Finset.mem_univ _, free'⟩, fd,
          Finset.mem_filter.mpr ⟨Finset.mem_univ _, free⟩, apart⟩
      refine .delivers accepted ?_ (by decide)
      rw [List.length_append, bytesOf_length, bytesOf_length]
      exact (if_pos ⟨⟨p, unused⟩, two⟩).symm

theorem course_goes (c : Caller) (call : Call) : Goes c call (course c call) := by
  cases call with
  | read fd pointer length => exact read_goes c fd pointer length
  | makePipe pointer => exact makePipe_goes c pointer

end Courses

section Agreement

variable {c : Caller}

/-- What a call answers that was not suspended is what it answers where memory is one flat
array, and the kernel is left the same apart from the memory. -/
def Agrees (c : Caller) : Course → Syscalls.Outcome × Kernel → Prop
  | .never, _ => False
  | .waits, flat => ∃ channel, flat = (.blocks 0, Lifecycle.park c.kernel channel)
  | .answers result k _, flat => flat = (.answers result, k)
  | .delivers _ result k _, flat => ∃ m, flat = (.answers result, k.storeView m)

private theorem allows_of_accepted (shut : KernelShut c.checked) {pointer length : Word}
    (canonical : CanonicalRange pointer length)
    (accepted : isUserAccessible c.checked pointer length = some true) :
    (pointerAccess c.checked shut).allows pointer length = true :=
  decide_eq_true ⟨accepted, canonical⟩

theorem makePipe_agrees (shut : KernelShut c.checked) {pointer : Word}
    (canonical : CanonicalRange pointer 16)
    (accepted : isUserAccessible c.checked pointer 16 = some true) :
    Agrees c (makePipe c pointer)
      (Syscalls.answerWith (Pipes.makePipe c.kernel (pointerAccess c.checked shut) pointer)) := by
  have passed : ¬(pointerAccess c.checked shut).allows pointer 16 = false := by
    rw [allows_of_accepted shut canonical accepted]
    decide
  unfold makePipe Pipes.makePipe
  rw [accepted, if_neg passed]
  dsimp only
  cases create c.kernel with
  | mk pipe k₁ =>
  cases pipe with
  | none => exact (rfl : (_, _) = (_, _))
  | some p =>
  dsimp only
  cases addDescriptor k₁ k₁.current (.pipeRead p) with
  | mk readFd k₂ =>
  cases readFd with
  | none => exact (rfl : (_, _) = (_, _))
  | some fd =>
  dsimp only
  cases addDescriptor k₂ k₁.current (.pipeWrite p) with
  | mk writeFd k₃ =>
  cases writeFd with
  | none => exact (rfl : (_, _) = (_, _))
  | some fd' => exact ⟨_, rfl⟩

theorem read_agrees (shut : KernelShut c.checked) (env : Syscalls.Surroundings) (fd : Word)
    {pointer length : Word} (access : env.access = pointerAccess c.checked shut)
    (awake : c.woken = c.kernel) (typed : env.input = c.typed)
    (canonical : CanonicalRange pointer length)
    (accepted : userSlice c.checked pointer length = some true) :
    Agrees c (read c fd pointer length) (Syscalls.read c.kernel env fd pointer length) := by
  have passed : ¬Syscalls.userSlice env.access pointer length = false := by
    obtain ⟨short, open'⟩ := userSlice_true.mp accepted
    have fits : ¬4096 < length := BitVec.not_lt.mpr short
    rw [access, Syscalls.userSlice, allows_of_accepted shut canonical open', decide_eq_false fits]
    decide
  unfold read Syscalls.read
  rw [accepted, if_neg passed, awake, typed]
  dsimp only
  cases descriptor c.kernel c.kernel.current fd.toNat with
  | pipeRead pipe =>
      dsimp only
      rcases readOnce (c.kernel.pipes pipe) length.toNat with ⟨_ | bytes, after⟩
      · exact ⟨_, rfl⟩
      · dsimp only [Agrees]
        unfold wakeIfMoved
        split_ifs
        · exact ⟨_, rfl⟩
        · exact ⟨_, rfl⟩
  | console =>
      dsimp only
      split_ifs
      · exact (rfl : (_, _) = (_, _))
      · exact ⟨_, rfl⟩
      · exact ⟨_, rfl⟩
  | pipeWrite pipe => exact (rfl : (_, _) = (_, _))
  | free => exact (rfl : (_, _) = (_, _))

end Agreement

section Delivery

variable {c : Caller} {call : Call}

private theorem storeAll_lawful {pointer : Word} {bytes : List (BitVec 8)} {n : Nat}
    (lawful : ∀ i, n ≤ i → i < n + bytes.length →
      Lawful (c.moments i).paging (pointer + BitVec.ofNat 64 i)) :
    (∃ enough, ∀ attempts, enough ≤ attempts → storeAll c pointer attempts n bytes = .done) ∧
      ∀ attempts, storeAll c pointer attempts n bytes ≠ .halted := by
  induction bytes generalizing n with
  | nil => exact ⟨⟨0, fun _ _ => rfl⟩, fun _ halted => nomatch halted⟩
  | cons byte rest ih =>
      obtain ⟨⟨later, done'⟩, safe'⟩ := ih (n := n + 1) fun i after below => by
        refine lawful i (Nat.le_of_succ_le after) ?_
        rw [List.length_cons]
        omega
      have here := lawful n (Nat.le_refl n) (by
        rw [List.length_cons]
        omega)
      obtain ⟨first, t, done⟩ := lawful_stores (c.moments n).books (c.moments n).held
        (c.moments n).member here (c.kernel.tasks c.kernel.current).stackTop
        (c.kernel.tasks c.kernel.current).stackLimit byte
      refine ⟨⟨max first later, fun attempts enough => ?_⟩, fun attempts => ?_⟩
      · have more := storeByte_more (by rw [done]; exact nofun) (Nat.max_le.mp enough).1
        rw [done] at more
        unfold storeAll
        dsimp only
        rw [more]
        exact done' attempts (Nat.max_le.mp enough).2
      · have safe := storeByte_safe done attempts
        unfold storeAll
        dsimp only
        generalize storeByte _ _ _ _ attempts _ = ending at safe ⊢
        cases ending with
        | done _ => exact safe' attempts
        | halted => exact absurd rfl safe
        | unfinished => exact nofun

private theorem course_endless (short : call.length ≤ 4096)
    (endless : Endless c.checked call.pointer call.length) : course c call = .never := by
  cases call with
  | read fd pointer length =>
      have sliced : userSlice c.checked pointer length = none := userSlice_none.mpr ⟨short, endless⟩
      change read c fd pointer length = .never
      unfold read
      rw [sliced]
  | makePipe pointer =>
      have refused : isUserAccessible c.checked pointer 16 = none := (endless_iff _ _ _).mpr endless
      change makePipe c pointer = .never
      unfold makePipe
      rw [refused]

/-- What the kernel stores for a call it stores where the program may write, and else the
call fails and takes nothing, exactly where the check of its pointer ends and the program
may write each byte that is there. -/
theorem kernel_stores_proper_iff (c : Caller) (call : Call) :
    Proper c call ↔ Writable c call := by
  have goes := course_goes c call
  constructor
  · intro proper
    refine ⟨fun short endless => ?_, fun short allowed n there => proper.lawful n ?_⟩
    · obtain ⟨attempts, ended⟩ := proper.ends
      refine ended ?_
      unfold serve
      rw [course_endless short endless]
    · unfold stored
      generalize course c call = taken at goes ⊢
      cases goes with
      | never short endless =>
          rw [(endless_iff _ _ _).mpr endless] at allowed
          cases allowed
      | waits nothing =>
          rw [nothing] at there
          exact absurd there (Nat.not_lt_zero n)
      | answers nothing untouched =>
          rw [nothing ⟨short, allowed⟩] at there
          exact absurd there (Nat.not_lt_zero n)
      | delivers accepted count succeeds =>
          dsimp only
          rw [count]
          exact there
  · intro writable
    cases taken : course c call with
    | never =>
        rw [taken] at goes
        cases goes with
        | never short endless => exact absurd endless (writable.bounded short)
    | waits =>
        have nothing : stored c call = [] := by
          unfold stored
          rw [taken]
        have waits : ∀ attempts, serve c call attempts = .waits := fun attempts => by
          unfold serve
          rw [taken]
        refine ⟨fun n low => ?_, fun attempts k typed failed => ?_, fun attempts => ?_, 0, ?_⟩
        · rw [nothing] at low
          exact absurd low (Nat.not_lt_zero n)
        · rw [waits] at failed
          cases failed
        · rw [waits]
          exact nofun
        · rw [waits]
          exact nofun
    | answers result k typed =>
        have nothing : stored c call = [] := by
          unfold stored
          rw [taken]
        have answers : ∀ attempts, serve c call attempts = .answers result k typed :=
          fun attempts => by
            unfold serve
            rw [taken]
        rw [taken] at goes
        refine ⟨fun n low => ?_, fun attempts k' typed' failed => ?_, fun attempts => ?_, 0, ?_⟩
        · rw [nothing] at low
          exact absurd low (Nat.not_lt_zero n)
        · rw [answers] at failed
          cases failed
          cases goes with
          | answers nothing untouched => exact untouched
        · rw [answers]
          exact nofun
        · rw [answers]
          exact nofun
    | delivers bytes result k typed =>
        have all : stored c call = bytes := by
          unfold stored
          rw [taken]
        rw [taken] at goes
        cases goes with
        | delivers accepted count succeeds =>
        have lawful := writable.open' accepted.1 accepted.2
        rw [← count] at lawful
        obtain ⟨⟨enough, done⟩, safe⟩ := @storeAll_lawful c call.pointer bytes 0
          fun i _ below => lawful i (by omega)
        have serves : ∀ attempts, serve c call attempts = .answers result k typed ∨
            serve c call attempts = .unfinished := fun attempts => by
          have going := safe attempts
          unfold serve
          rw [taken]
          dsimp only
          generalize storeAll c call.pointer attempts 0 bytes = ending at going ⊢
          cases ending with
          | done => exact Or.inl rfl
          | halted => exact absurd rfl going
          | unfinished => exact Or.inr rfl
        refine ⟨fun n low => ?_, fun attempts k' typed' failed => ?_, fun attempts halted => ?_,
          enough, ?_⟩
        · rw [all] at low
          exact lawful n low
        · rcases serves attempts with same | same
          · rw [same] at failed
            cases failed
            exact absurd rfl succeeds
          · rw [same] at failed
            cases failed
        · rcases serves attempts with same | same
          · rw [same] at halted
            cases halted
          · rw [same] at halted
            cases halted
        · unfold serve
          rw [taken]
          dsimp only
          rw [done enough (Nat.le_refl enough)]
          exact nofun

private def reader : Kernel where
  tasks := Function.update (fun _ => empty) 1 { empty with
    state := .ready, addressSpace := some (rootAt 0x100000),
    files := Function.update (fun _ => .free) 0 .console }
  current := 1
  enabled := true
  ticks := 0
  activeRoot := rootAt 0x100000
  kernelRoot := rootAt 0x1000
  rsp0 := 0
  sched := FiveAM.Sched.Mechanism.new
  pipes _ := Pipe.empty
  orphans := []
  memory := ⟨fun _ => 0, fun _ _ => 0⟩

private def readOnlyPage : List Memory.Conservation.Event :=
  [.create, .take, .map 0x100000 0x400000 0x101000 user, .activate 0x100000]

private def halts : Stored → Bool
  | .done _ => false
  | .halted => true
  | .unfinished => false

/-- A program reads a key into its text: the pointer is accepted, the key is taken, and the
store of it stops the machine. -/
theorem kernel_stores_proper_not : ∃ k c,
    Reached Memory.Conservation.step (fun k => k = Memory.Conservation.booted sixFrames) Spares k ∧
      c.checked = k.paging ∧ (∀ n, (c.moments n).paging = k.paging) ∧
      serve c (.read 0 0x400000 1) 1 = .halted ∧ ¬Proper c (.read 0 0x400000 1) := by
  have facts : ((runAll Memory.Conservation.step (Memory.Conservation.booted sixFrames)
      readOnlyPage).any fun k =>
      decide (k.live = {0x100000} ∧ k.lost = ∅ ∧ k.paging.cr3 = 0x100000 ∧
        isUserAccessible k.paging 0x400000 1 = some true ∧
        halts (storeByte 0 0 0x400000 0x61 1 k.paging) = true)) = true := by
    decide +kernel
  obtain ⟨k, run, facts⟩ := Option.any_eq_true _ _ |>.mp facts
  obtain ⟨live, lost, active, accepted, halted⟩ := of_decide_eq_true facts
  have resident : ((runAll Memory.Conservation.step (Memory.Conservation.booted sixFrames)
      [.create, .take]).map fun k =>
        isSwappedEntry (leafAt k.paging.words 0x100000 (indexes 0x400000))) = some false := by
    decide +kernel
  have spared : allAllowed Memory.Conservation.step Spares
      (Memory.Conservation.booted sixFrames) readOnlyPage := by
    refine ⟨trivial, fun s1 first => ⟨trivial, fun s2 second => ⟨?_, fun _ _ => ⟨trivial,
      fun _ _ => trivial⟩⟩⟩⟩
    simp only [runAll, first, second, Option.bind_some, Option.map_some, Option.some.injEq] at resident
    exact resident
  have framed : (sixFrames.all fun f => decide (Framed f)) = true := by decide +kernel
  have usable : Usable sixFrames :=
    ⟨fun f inside => of_decide_eq_true (List.all_eq_true.mp framed f inside), by decide +kernel⟩
  have begun : Reached Memory.Conservation.step (fun k => ∃ managed, Sane managed k) Spares
      (Memory.Conservation.booted sixFrames) := .start ⟨_, booted_sane usable.1 usable.2⟩
  obtain ⟨managed, sane⟩ := reached_sane (begun.runAll spared run)
  obtain ⟨chain, books⟩ := sane.books
  have held := sane.slots.held
  have member : k.paging.cr3 ∈ k.all := by
    rw [active, Memory.Conservation.Machine.all, live]
    exact Finset.mem_union_left _ (Finset.mem_singleton_self _)
  have stuck : storeByte 0 0 0x400000 0x61 1 k.paging = .halted := by
    generalize storeByte 0 0 0x400000 0x61 1 k.paging = ending at halted
    cases ending with
    | done _ => cases halted
    | halted => rfl
    | unfinished => cases halted
  let moment : Moment := ⟨k.paging, managed, k.all, k.hand, chain, books, held, member⟩
  let c : Caller := ⟨k.paging, reader, reader, [0x61], fun _ => moment⟩
  have goes : course c (.read 0 0x400000 1) = .delivers [0x61] 1 reader [] := by
    have console : descriptor reader reader.current 0 = .console := by decide
    have allowed : userSlice c.checked 0x400000 1 = some true :=
      userSlice_true.mpr ⟨by decide, accepted⟩
    change read c 0 0x400000 1 = _
    unfold read
    rw [allowed]
    dsimp only
    rw [show descriptor c.kernel c.kernel.current (BitVec.toNat 0) = .console from console]
    rfl
  have stops : serve c (.read 0 0x400000 1) 1 = .halted := by
    have first : storeByte (c.kernel.tasks c.kernel.current).stackTop
        (c.kernel.tasks c.kernel.current).stackLimit (0x400000 + BitVec.ofNat 64 0) 0x61 1
        (c.moments 0).paging = .halted := stuck
    unfold serve
    rw [goes]
    dsimp only
    unfold storeAll
    dsimp only [Call.pointer]
    rw [first]
  refine ⟨k, c, Reached.runAll (.start rfl) spared run, rfl, fun _ => rfl, stops, fun proper => ?_⟩
  exact proper.safe 1 stops

end Delivery

end FiveAM.Process.UserBuffers
