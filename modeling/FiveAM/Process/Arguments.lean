/- GID: FiveAM/Process/Arguments
   source: kernel/src/syscall.rs, kernel/src/user.rs
   digest: The arguments of `exec`, from the caller's blob to the new program's stack. -/

import FiveAM.Process.FrameMemory
import FiveAM.Process.Syscalls
import FiveAM.Lib.Splitting
import Mathlib.Algebra.Order.BigOperators.Group.List
import Mathlib.Algebra.Order.Ring.Nat

set_option autoImplicit false
set_option relaxedAutoImplicit false

namespace FiveAM.Process.Arguments

open FiveAM.Process.TaskTable FiveAM.Process.Machine FiveAM.Process.Syscalls
open FiveAM.Process.Lifecycle FiveAM.Process.FrameMemory FiveAM.Lib.ByteMemory FiveAM.Lib.Splitting

/-- The bytes of a `String`. -/
abbrev Argument := List (BitVec 8)

/-- The lowest address of the one page `map_stack` maps. -/
def firstPage : Word := userStackTop - 4096

/-- What the loader leaves in a fresh address space, and whether it has mapped the top page of the
stack for itself. -/
structure Loaded where
  root : Root
  memory : Bytes
  entry : Word
  covered : Bool

section Source

/-- Copy the arguments out of the caller's memory, up to `count` of them. -/
def gather (count : Nat) (arguments : List Argument) : List Argument → Option (List Argument)
  | [] => some arguments
  | piece :: rest =>
      if count ≤ arguments.length then some arguments
      else if piece = [] then gather count arguments rest
      else if isUtf8 piece then gather count (arguments ++ [piece]) rest
      else none

/-- `map_stack`: the page is zeroed when it is mapped here. -/
def mapStack (covered : Bool) (m : Bytes) : Bytes :=
  if covered then m else zeroFill m firstPage.toNat 4096

/-- Memory, cursor and the addresses so far, with one string more. -/
def placeString (s : Bytes × Word × List Word) (argument : Argument) : Bytes × Word × List Word :=
  let cursor := (s.2.1 - (BitVec.ofNat 64 argument.length + 1)) &&& ~~~0x7
  let m := storeBytes s.1 cursor argument
  (storeBytes m (cursor + BitVec.ofNat 64 argument.length) [0], cursor, s.2.2 ++ [cursor])

/-- `place_arguments`: memory, stack pointer, count and the address of the array. -/
def placeArguments (m : Bytes) (stackTop : Word) (arguments : List Argument) :
    Bytes × Word × Word × Word :=
  let (m, cursor, addresses) := arguments.foldl placeString (m, stackTop, [])
  let count := BitVec.ofNat 64 addresses.length
  let argv := (cursor - (count + 1) * 8) &&& ~~~0xF
  let stack := (argv - 64) &&& ~~~0xF
  (writeWords m argv.toNat (addresses ++ [0]), stack - 8, count, argv)

/-- The program with its stack mapped and its arguments placed. -/
def start (loaded : Loaded) (arguments : List Argument) : Image :=
  let (m, stack, argc, argv) :=
    placeArguments (mapStack loaded.covered loaded.memory) userStackTop arguments
  ⟨loaded.root, m, loaded.entry, stack, argc, argv⟩

/-- The program `exec` finds under the first argument; `load` stands for the file system,
the fresh address space and the loader. -/
def program (load : Argument → Option Loaded) (bytes : List (BitVec 8)) (count : Nat) :
    Option Image :=
  match gather count [] (bytes.splitOn 0) with
  | none => none
  | some [] => none
  | some (name :: rest) => (load name).map fun loaded => start loaded (name :: rest)

/-- `exec` from the blob on. -/
def execBlob (k : Kernel) (env : Surroundings) (load : Argument → Option Loaded)
    (blob length count context : Word) : Word × Kernel :=
  exec k { env with image := program load (loadBytes k.view blob length.toNat) count.toNat }
    blob length count context

end Source

/-- The arguments a blob holds: its first `count` pieces that are not empty. -/
def arguments (bytes : List (BitVec 8)) (count : Nat) : List Argument :=
  ((bytes.splitOn 0).filter fun piece => piece ≠ []).take count

/-- A string at `a` that ends with its first zero. -/
structure StringAt (m : Bytes) (a : Word) (s : Argument) : Prop where
  bytes : ∀ i (inside : i < s.length), m (a.toNat + i) = s[i]
  ends : m (a.toNat + s.length) = 0
  nonzero : 0 ∉ s

/-- The arguments as `main` finds them above its stack pointer. -/
structure Placed (m : Bytes) (stack argv : Word) (addresses : List Word) (arguments : List Argument) :
    Prop where
  array : ∀ i (inside : i < addresses.length), readWord m (argv.toNat + 8 * i) = addresses[i]
  null : readWord m (argv.toNat + 8 * addresses.length) = 0
  strings : List.Forall₂ (StringAt m) addresses arguments
  mapped : firstPage.toNat ≤ stack.toNat
  below : stack.toNat < argv.toNat
  held : argv.toNat + 8 * (addresses.length + 1) ≤ userStackTop.toNat
  above : ∀ a ∈ addresses, argv.toNat + 8 * (addresses.length + 1) ≤ a.toNat
  fits : ∀ (i : Nat) a s, addresses[i]? = some a → arguments[i]? = some s →
    a.toNat + s.length < userStackTop.toNat
  apart : ∀ (i j : Nat) a b s, i < j → addresses[i]? = some a → addresses[j]? = some b →
    arguments[j]? = some s → b.toNat + s.length < a.toNat
  aligned : argv.toNat % 16 = 0
  entry : stack.toNat % 16 = 8

section Strings

variable {m m' : Bytes}

/-- The strings of a list one below the other, from `hi` down to `lo`. -/
inductive Strung (m : Bytes) (lo : Nat) : Nat → List Word → List Argument → Prop
  | nil {hi : Nat} (low : lo ≤ hi) : Strung m lo hi [] []
  | cons {hi : Nat} {a : Word} {s : Argument} {as : List Word} {ss : List Argument}
      (here : StringAt m a s) (fits : a.toNat + s.length < hi) (rest : Strung m lo a.toNat as ss) :
      Strung m lo hi (a :: as) (s :: ss)

private theorem StringAt.congr {a : Word} {s : Argument} (here : StringAt m a s)
    (same : ∀ x, a.toNat ≤ x → x ≤ a.toNat + s.length → m' x = m x) : StringAt m' a s where
  bytes i inside := (same _ (by omega) (by omega)).trans (here.bytes i inside)
  ends := (same _ (by omega) (by omega)).trans here.ends
  nonzero := here.nonzero

namespace Strung

variable {lo hi : Nat} {as : List Word} {ss : List Argument}

theorem lo_le (strung : Strung m lo hi as ss) : lo ≤ hi := by
  induction strung with
  | nil low => exact low
  | cons _ fits _ ih => omega

theorem congr (strung : Strung m lo hi as ss) (same : ∀ x, lo ≤ x → x < hi → m' x = m x) :
    Strung m' lo hi as ss := by
  induction strung with
  | nil low => exact .nil low
  | cons here fits rest ih =>
      have low := rest.lo_le
      refine .cons (here.congr fun x above below => same x (by omega) (by omega)) fits ?_
      exact ih fun x above below => same x above (by omega)

theorem strings (strung : Strung m lo hi as ss) : List.Forall₂ (StringAt m) as ss := by
  induction strung with
  | nil => exact .nil
  | cons here _ _ ih => exact .cons here ih

theorem above (strung : Strung m lo hi as ss) : ∀ a ∈ as, lo ≤ a.toNat := by
  induction strung with
  | nil => simp
  | cons _ _ rest ih =>
      intro a member
      rcases List.mem_cons.mp member with rfl | later
      · exact rest.lo_le
      · exact ih a later

theorem fits (strung : Strung m lo hi as ss) (i : Nat) (a : Word) (s : Argument)
    (address : as[i]? = some a) (string : ss[i]? = some s) : a.toNat + s.length < hi := by
  induction strung generalizing i with
  | nil => cases address
  | cons _ fits rest ih =>
      cases i with
      | zero =>
          obtain rfl := Option.some.inj address
          obtain rfl := Option.some.inj string
          exact fits
      | succ i =>
          have lower := ih i address string
          omega

theorem apart (strung : Strung m lo hi as ss) (i j : Nat) (a b : Word) (s : Argument) (order : i < j)
    (upper : as[i]? = some a) (lower : as[j]? = some b) (string : ss[j]? = some s) :
    b.toNat + s.length < a.toNat := by
  induction strung generalizing i j with
  | nil => cases upper
  | cons _ _ rest ih =>
      cases j with
      | zero => exact absurd order (Nat.not_lt_zero i)
      | succ j =>
          cases i with
          | zero =>
              obtain rfl := Option.some.inj upper
              exact rest.fits j b s lower string
          | succ i => exact ih i j (Nat.lt_of_succ_lt_succ order) upper lower string

end Strung

/-- The room strings take at most, with their zeros and the padding. -/
def room (ss : List Argument) : Nat := (ss.map fun s => s.length + 8).sum

private theorem string_placed {cursor : Word} {acc : List Word} {s : Argument}
    (nonzero : 0 ∉ s) (aligned : cursor.toNat % 8 = 0) (roomy : s.length + 8 ≤ cursor.toNat) :
    ∃ m' a, placeString (m, cursor, acc) s = (m', a, acc ++ [a]) ∧ a.toNat % 8 = 0 ∧
      a.toNat + s.length < cursor.toNat ∧ cursor.toNat ≤ a.toNat + (s.length + 8) ∧
      (∀ x, x < a.toNat ∨ cursor.toNat ≤ x → m' x = m x) ∧ StringAt m' a s := by
  have high := cursor.isLt
  have size : (BitVec.ofNat 64 s.length).toNat = s.length := by
    rw [BitVec.toNat_ofNat]
    omega
  have lowered : (cursor - (BitVec.ofNat 64 s.length + 1)).toNat = cursor.toNat - (s.length + 1) := by
    have one : (1 : Word).toNat = 1 := rfl
    rw [BitVec.toNat_sub, BitVec.toNat_add, size, one]
    omega
  generalize address : (cursor - (BitVec.ofNat 64 s.length + 1)) &&& ~~~0x7 = a
  have place : a.toNat = (cursor.toNat - (s.length + 1)) / 8 * 8 := by
    rw [← address, ← lowered]
    exact toNat_and_not_low _ 3
  have last : (a + BitVec.ofNat 64 s.length).toNat = a.toNat + s.length := by
    rw [BitVec.toNat_add, size]
    omega
  refine ⟨_, a, by rw [placeString, address], by omega, by omega, by omega, fun x out => ?_, ?_, ?_, nonzero⟩
  · unfold storeBytes
    rw [last, if_neg (by simp only [List.length_singleton]; omega), if_neg (by omega)]
  · intro i inside
    unfold storeBytes
    rw [last, if_neg (by simp only [List.length_singleton]; omega), if_pos (by omega),
      Nat.add_sub_cancel_left, List.getD_eq_getElem?_getD, List.getElem?_eq_getElem inside, Option.getD_some]
  · unfold storeBytes
    rw [last, if_pos (by simp only [List.length_singleton]; omega), Nat.sub_self]
    rfl

theorem strings_placed {cursor : Word} {acc : List Word} {ss : List Argument}
    (nonzero : ∀ s ∈ ss, 0 ∉ s) (aligned : cursor.toNat % 8 = 0) (roomy : room ss ≤ cursor.toNat) :
    ∃ m' cursor' as, ss.foldl placeString (m, cursor, acc) = (m', cursor', acc ++ as) ∧
      cursor.toNat ≤ cursor'.toNat + room ss ∧ Strung m' cursor'.toNat cursor.toNat as ss ∧
      ∀ x, x < cursor'.toNat ∨ cursor.toNat ≤ x → m' x = m x := by
  induction ss generalizing m cursor acc with
  | nil =>
      refine ⟨m, cursor, [], ?_, Nat.le_add_right _ _, .nil le_rfl, fun _ _ => rfl⟩
      rw [List.foldl_nil, List.append_nil]
  | cons s ss ih =>
      have total : room (s :: ss) = s.length + 8 + room ss := by
        simp only [room, List.map_cons, List.sum_cons]
      obtain ⟨m₁, a, placed, aligned₁, fits, near, same₁, here⟩ :=
        @string_placed m cursor acc s (nonzero s List.mem_cons_self) aligned (by omega)
      obtain ⟨m', cursor', as, run, near', strung, same'⟩ := @ih m₁ a (acc ++ [a])
        (fun s member => nonzero s (List.mem_cons_of_mem _ member)) aligned₁ (by omega)
      have low := strung.lo_le
      refine ⟨m', cursor', a :: as, ?_, by omega, .cons ?_ fits strung, fun x out => ?_⟩
      · rw [List.foldl_cons, placed, run, List.append_assoc, List.singleton_append]
      · exact here.congr fun x above _ => same' x (Or.inr above)
      · rw [same' x (by omega), same₁ x (by omega)]

end Strings

section Layout

variable {m : Bytes} {ss : List Argument}

theorem arguments_placed (nonzero : ∀ s ∈ ss, 0 ∉ s) (short : room ss + 8 * ss.length ≤ 3968) :
    ∃ m' stack argv as, placeArguments m userStackTop ss =
        (m', stack, BitVec.ofNat 64 ss.length, argv) ∧ as.length = ss.length ∧
      Placed m' stack argv as ss := by
  have top : userStackTop.toNat = 0x110000 := rfl
  have first : firstPage.toNat = 0x10f000 := rfl
  obtain ⟨m₁, cursor, as, run, near, strung, -⟩ := @strings_placed m userStackTop [] ss nonzero
    rfl (by omega)
  have count : as.length = ss.length := strung.strings.length_eq
  have low := strung.lo_le
  have size : (BitVec.ofNat 64 as.length).toNat = as.length := by
    rw [BitVec.toNat_ofNat]
    omega
  generalize words : (cursor - (BitVec.ofNat 64 as.length + 1) * 8) &&& ~~~0xF = argv
  have lowered : (cursor - (BitVec.ofNat 64 as.length + 1) * 8).toNat =
      cursor.toNat - 8 * (as.length + 1) := by
    have one : (1 : Word).toNat = 1 := rfl
    have eight : (8 : Word).toNat = 8 := rfl
    rw [BitVec.toNat_sub, BitVec.toNat_mul, BitVec.toNat_add, size, one, eight]
    omega
  have array : argv.toNat = (cursor.toNat - 8 * (as.length + 1)) / 16 * 16 := by
    rw [← words, ← lowered]
    exact toNat_and_not_low _ 4
  generalize bottom : ((argv - 64) &&& ~~~0xF) - 8 = stack
  have entry : stack.toNat = argv.toNat - 72 := by
    have aside : ((argv - 64) &&& ~~~(0xF : Word)).toNat = (argv.toNat - 64) / 16 * 16 := by
      have sub : (argv - 64).toNat = argv.toNat - 64 := by
        have gap : (64 : Word).toNat = 64 := rfl
        rw [BitVec.toNat_sub, gap]
        omega
      rw [← sub]
      exact toNat_and_not_low _ 4
    have eight : (8 : Word).toNat = 8 := rfl
    rw [← bottom, BitVec.toNat_sub, aside, eight]
    omega
  refine ⟨writeWords m₁ argv.toNat (as ++ [0]), stack, argv, as, ?_, count, ?_⟩
  · unfold placeArguments
    simp only [run, List.nil_append, words, bottom]
    rw [count]
  · have same : ∀ x, cursor.toNat ≤ x → writeWords m₁ argv.toNat (as ++ [0]) x = m₁ x :=
      fun x high => writeWords_outside (by
        rw [List.length_append, List.length_singleton]
        omega)
    have strung := strung.congr fun x high _ => same x high
    refine ⟨fun i inside => ?_, ?_, strung.strings, by omega, by omega, by omega, fun a member => ?_,
      fun i a s => ?_, strung.apart, by omega, by omega⟩
    · rw [readWord_writeWords (by simp only [List.length_append]; omega)]
      exact List.getElem_append_left inside
    · rw [readWord_writeWords (by simp only [List.length_append, List.length_singleton]; omega)]
      exact List.getElem_concat_length rfl _
    · have lower := strung.above a member
      omega
    · exact strung.fits i a s

end Layout

section Gathering

theorem gather_spec {count : Nat} {found pieces result : List Argument}
    (gathered : gather count found pieces = some result) (short : found.length ≤ count) :
    result = found ++ (pieces.filter fun piece => piece ≠ []).take (count - found.length) := by
  induction pieces generalizing found with
  | nil =>
      obtain rfl := Option.some.inj gathered
      simp
  | cons piece rest ih =>
      unfold gather at gathered
      split_ifs at gathered with full empty valid
      · obtain rfl := Option.some.inj gathered
        rw [Nat.sub_eq_zero_of_le full, List.take_zero, List.append_nil]
      · subst empty
        exact ih gathered short
      · have more := ih gathered (by rw [List.length_append, List.length_singleton]; omega)
        have less : count - found.length = count - (found ++ [piece]).length + 1 := by
          rw [List.length_append, List.length_singleton]
          omega
        rw [more, List.filter_cons_of_pos (by simpa using empty), less, List.take_succ_cons,
          List.append_assoc, List.singleton_append]

theorem arguments_short {bytes : List (BitVec 8)} {count : Nat} (small : bytes.length ≤ 1024)
    (few : count ≤ 16) :
    room (arguments bytes count) + 8 * (arguments bytes count).length ≤ 3968 := by
  have among : (arguments bytes count).Sublist (bytes.splitOn 0) :=
    (List.take_sublist _ _).trans List.filter_sublist
  have total : ((bytes.splitOn 0).map fun piece : Argument => piece.length + 1).sum =
      bytes.length + 1 := splitOn_length 0 bytes
  have part := (among.map fun piece : Argument => piece.length + 1).sum_le_sum fun _ _ => Nat.zero_le _
  have number : (arguments bytes count).length ≤ count := List.length_take_le _ _
  have padded : room (arguments bytes count) =
      ((arguments bytes count).map fun piece : Argument => piece.length + 1).sum +
        7 * (arguments bytes count).length := by
    generalize arguments bytes count = ss
    unfold room
    induction ss with
    | nil => rfl
    | cons s ss ih =>
        simp only [List.map_cons, List.sum_cons, List.length_cons, ih]
        omega
  omega

private theorem program_spec {load : Argument → Option Loaded} {bytes : List (BitVec 8)} {count : Nat}
    {image : Image} (found : program load bytes count = some image) :
    ∃ loaded, image = start loaded (arguments bytes count) := by
  unfold program at found
  split at found
  · cases found
  · cases found
  · rename_i name rest gathered
    obtain ⟨loaded, -, rfl⟩ := Option.map_eq_some_iff.mp found
    have same := gather_spec gathered (Nat.zero_le count)
    rw [List.nil_append, List.length_nil, Nat.sub_zero] at same
    exact ⟨loaded, by rw [same]; rfl⟩

end Gathering

section Starting

variable {m m' : Bytes} {stack argv : Word} {addresses : List Word} {ss : List Argument}

theorem Placed.congr (placed : Placed m stack argv addresses ss)
    (same : ∀ x, firstPage.toNat ≤ x → x < userStackTop.toNat → m' x = m x) :
    Placed m' stack argv addresses ss where
  array i inside := by
    have held := placed.held
    have mapped := placed.mapped
    have below := placed.below
    refine Eq.trans (readWord_congr fun x low high => same x ?_ ?_) (placed.array i inside) <;> omega
  null := by
    have held := placed.held
    have mapped := placed.mapped
    have below := placed.below
    refine Eq.trans (readWord_congr fun x low high => same x ?_ ?_) placed.null <;> omega
  strings := by
    refine List.forall₂_iff_get.mpr ⟨placed.strings.length_eq, fun i left right => ?_⟩
    have here := (List.forall₂_iff_get.mp placed.strings).2 i left right
    have fits := placed.fits i _ _ (List.getElem?_eq_getElem left) (List.getElem?_eq_getElem right)
    have above := placed.above _ (List.getElem_mem left)
    have mapped := placed.mapped
    have below := placed.below
    refine here.congr fun x low high => same x ?_ (lt_of_le_of_lt high fits)
    rw [List.get_eq_getElem] at low
    simp only at low
    omega
  mapped := placed.mapped
  below := placed.below
  held := placed.held
  above := placed.above
  fits := placed.fits
  apart := placed.apart
  aligned := placed.aligned
  entry := placed.entry

variable {k : Kernel} {env : Surroundings} {blob length count context : Word}

theorem exec_starts (fits : Fits context) (high : userSpaceEnd ≤ context.toNat)
    (started : (exec k env blob length count context).1 = 0) :
    length.toNat ≤ 1024 ∧ count.toNat ≤ 16 ∧ ∃ image, env.image = some image ∧
      readFrame (exec k env blob length count context).2.view context =
        userFrame image.entry image.stack image.argc image.argv ∧
      ∀ x, x < userSpaceEnd → (exec k env blob length count context).2.view x = image.memory x := by
  have refused : Pipes.failure ≠ 0 := by decide
  unfold exec at started ⊢
  split_ifs at started ⊢ with checks
  · exact absurd started refused
  · simp only [not_or] at checks
    obtain ⟨-, small, -, few⟩ := checks
    cases found : env.image with
    | none =>
        rw [found] at started
        exact absurd started refused
    | some image =>
        refine ⟨Nat.le_of_not_lt small, Nat.le_of_not_lt few, image, rfl, ?_, fun x low => ?_⟩
        · simp only [Kernel.view, Kernel.storeView, Memory.view_store]
          exact readFrame_writeFrame fits
        · simp only [Kernel.view, Kernel.storeView, Memory.view_store]
          rw [writeFrame_outside fits (Or.inl (lt_of_lt_of_le low high))]
          simp only [Memory.view, withUserMemory, if_pos low, Function.update_self]

end Starting

/-- A program that `exec` starts finds the arguments of its blob on its stack. -/
theorem arguments_survive (k : Kernel) (env : Surroundings) (load : Argument → Option Loaded)
    (blob length count context : Word) (fits : Fits context) (high : userSpaceEnd ≤ context.toNat)
    (started : (execBlob k env load blob length count context).1 = 0) :
    let k' := (execBlob k env load blob length count context).2
    let frame := readFrame k'.view context
    let arguments := arguments (loadBytes k.view blob length.toNat) count.toNat
    frame frameRdi = BitVec.ofNat 64 arguments.length ∧
      ∃ addresses, addresses.length = arguments.length ∧
        Placed k'.view (frame frameRsp) (frame frameRsi) addresses arguments := by
  obtain ⟨small, few, image, found, frame, user⟩ := exec_starts fits high started
  obtain ⟨loaded, rfl⟩ := program_spec found
  have bytes : (loadBytes k.view blob length.toNat).length ≤ 1024 := by
    unfold loadBytes
    rw [List.length_map, List.length_range]
    exact small
  have nonzero : ∀ s ∈ arguments (loadBytes k.view blob length.toNat) count.toNat, 0 ∉ s :=
    fun s member => not_mem_splitOn 0 _ s (List.mem_of_mem_filter (List.mem_of_mem_take member))
  obtain ⟨m, stack, argv, addresses, placed, number, shape⟩ :=
    arguments_placed (m := mapStack loaded.covered loaded.memory) nonzero (arguments_short bytes few)
  intro k' frame' arguments'
  have top : userStackTop.toNat ≤ userSpaceEnd := by decide
  have image : start loaded arguments' =
      ⟨loaded.root, m, loaded.entry, stack, BitVec.ofNat 64 arguments'.length, argv⟩ := by
    unfold start
    rw [placed]
  rw [image] at frame user
  have same : frame' = userFrame loaded.entry stack (BitVec.ofNat 64 arguments'.length) argv := frame
  rw [same]
  exact ⟨rfl, addresses, number, shape.congr fun x _ low => user x (lt_of_lt_of_le low top)⟩

section Scenario

private def caller : Kernel where
  tasks := Function.update (fun _ => empty) 1
    { empty with state := .ready, addressSpace := some (rootAt 0x5000) }
  current := 1
  enabled := true
  ticks := 0
  activeRoot := rootAt 0x5000
  kernelRoot := rootAt 0x1000
  rsp0 := 0
  sched := FiveAM.Sched.Mechanism.new
  pipes := fun _ => .empty
  orphans := []
  memory := ⟨fun _ => 0, fun _ a => if a = 0x400000 then 97 else if a = 0x400003 then 98
    else if a = 0x400004 then 99 else 0⟩

private def mapped : Surroundings where
  access := Pipes.lowHalf
  space := none
  stack := 0
  image := none
  input := []

private def found : Argument → Option Loaded := fun _ => some ⟨rootAt 0x6000, fun _ => 0, 0x400000, false⟩

theorem arguments_survive_two :
    let k' := (execBlob caller mapped found 0x400000 5 16 0x8000001000).2
    let frame := readFrame k'.view 0x8000001000
    let arguments := arguments (loadBytes caller.view 0x400000 5) 16
    frame frameRdi = BitVec.ofNat 64 arguments.length ∧
      ∃ addresses, addresses.length = arguments.length ∧
        Placed k'.view (frame frameRsp) (frame frameRsi) addresses arguments :=
  arguments_survive caller mapped found 0x400000 5 16 0x8000001000 (by decide) (by decide)
    (by decide +kernel)

/-- Its two arguments. -/
example : arguments (loadBytes caller.view 0x400000 5) 16 = [[97], [98, 99]] := by decide

end Scenario

end FiveAM.Process.Arguments
