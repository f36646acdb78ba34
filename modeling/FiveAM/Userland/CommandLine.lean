/- GID: FiveAM/Userland/CommandLine
   source: userland/src/sh.rs, userland/src/echo.rs
   digest: A line typed at the shell, from its keystrokes to what the program it names prints. -/

import FiveAM.Process.Arguments
import Mathlib.Data.List.DropRight

set_option autoImplicit false
set_option relaxedAutoImplicit false

namespace FiveAM.Userland.CommandLine

open FiveAM.Lib.ByteMemory FiveAM.Lib.Splitting FiveAM.Process.Arguments
open FiveAM.Process.FrameMemory FiveAM.Process.Lifecycle FiveAM.Process.Machine
open FiveAM.Process.Syscalls FiveAM.Process.TaskTable

abbrev Byte := BitVec 8

section Source

/-- `LINE`, how much of it is in use, and what has been echoed. -/
structure Editor where
  line : List Byte
  length : Nat
  echoed : List Byte

def ends (byte : Byte) : Bool := byte == 10 || byte == 13

def Editor.key (e : Editor) (byte : Byte) : Editor :=
  if byte = 8 ∨ byte = 127 then
    if 0 < e.length then
      { e with length := e.length - 1, echoed := e.echoed ++ [8, 32, 8] }
    else e
  else if 32 ≤ byte ∧ byte ≤ 126 then
    if e.length < 128 then
      ⟨e.line.set e.length byte, e.length + 1, e.echoed ++ [byte]⟩
    else e
  else e

/-- The bytes of one read, and whether one of them ends the line. -/
def keys (e : Editor) : List Byte → Editor × Bool
  | [] => (e, false)
  | byte :: rest =>
      if ends byte then ({ e with echoed := e.echoed ++ [10] }, true) else keys (e.key byte) rest

/-- Read after read until the line ends, or a read brings nothing; `none` waits for more. -/
def readMore (e : Editor) : List (List Byte) → Option (Editor × List (List Byte))
  | [] => none
  | [] :: rest => some (e, rest)
  | (byte :: more) :: rest =>
      let (e, done) := keys e (byte :: more)
      if done then some (e, rest) else readMore e rest

/-- `read_line`: what is left in `LINE` from before is not used. -/
def readLine (line : List Byte) (reads : List (List Byte)) :
    Option (Editor × List (List Byte)) := readMore ⟨line, 0, []⟩ reads

/-- `&LINE[..length]`. -/
def Editor.text (e : Editor) : List Byte := e.line.take e.length

def trim (bytes : List Byte) : List Byte := (bytes.dropWhile (· == 32)).rdropWhile (· == 32)

inductive Command where
  | nothing
  | exit
  | halfPipe
  | pipeline (left right : List Byte)
  | run (line : List Byte)
  deriving DecidableEq

def command (bytes : List Byte) : Command :=
  let line := trim bytes
  if line = [] then .nothing
  else if line = [101, 120, 105, 116] then .exit
  else if 124 ∈ line then
    let left := trim (line.takeWhile (· != 124))
    let right := trim ((line.dropWhile (· != 124)).drop 1)
    if left = [] ∨ right = [] then .halfPipe else .pipeline left right
  else .run line

/-- `BLOB` with the arguments so far. -/
structure Blob where
  bytes : List Byte
  length : Nat
  count : Nat

def Blob.push (b : Blob) (byte : Byte) : Blob :=
  if b.length < 255 then { b with bytes := b.bytes.set b.length byte, length := b.length + 1 }
  else b

def Blob.word (b : Blob) (word : List Byte) : Blob :=
  let b := (word.foldl Blob.push b).push 0
  { b with count := b.count + 1 }

/-- The loop of `exec`, with as many turns as it can take. -/
def pack : Nat → Blob → List Byte → Blob
  | 0, b, _ => b
  | turns + 1, b, command =>
      let rest := command.dropWhile (· == 32)
      if rest = [] then b
      else pack turns (b.word (rest.takeWhile (· != 32))) (rest.dropWhile (· != 32))

/-- What `exec` hands to the kernel, if it does; `BLOB` may hold anything before. -/
def execBlobOf (bytes command : List Byte) : Option Blob :=
  let b := pack command.length ⟨bytes, 0, 0⟩ command
  if b.count = 0 then none else some b

def lengthOf (m : Bytes) (pointer : Nat) : Nat :=
  ((List.range 256).takeWhile fun i => m (pointer + i) != 0).length

/-- The loop of `echo` over so many arguments from one on. -/
def echoFrom (m : Bytes) (argc argv : Nat) : Nat → Nat → List Byte
  | 0, _ => []
  | left + 1, i =>
      let pointer := readWord m (argv + 8 * i)
      if pointer = 0 then []
      else (List.range (lengthOf m pointer.toNat)).map (fun k => m (pointer.toNat + k)) ++
        (if i + 1 < argc then [32] else []) ++ echoFrom m argc argv left (i + 1)

/-- What `echo.elf` writes. -/
def echo (m : Bytes) (argc argv : Word) : List Byte :=
  echoFrom m argc.toNat argv.toNat (argc.toNat - 1) 1 ++ [10]

end Source

section Editing

variable {e : Editor}

def edit (text : List Byte) (byte : Byte) : List Byte :=
  if byte = 8 ∨ byte = 127 then text.dropLast
  else if 32 ≤ byte ∧ byte ≤ 126 ∧ text.length < 128 then text ++ [byte]
  else text

/-- The line that was typed, with its corrections. -/
def typed (bytes : List Byte) : List Byte := (bytes.takeWhile fun byte => !ends byte).foldl edit []

structure Editing (e : Editor) : Prop where
  size : e.line.length = 128
  inside : e.length ≤ 128

theorem key_edits (editing : Editing e) (byte : Byte) :
    Editing (e.key byte) ∧ (e.key byte).text = edit e.text byte := by
  have size := editing.size
  have inside := editing.inside
  have length : e.text.length = e.length := by
    rw [Editor.text, List.length_take]
    omega
  unfold Editor.key edit
  rw [length]
  by_cases back : byte = 8 ∨ byte = 127
  · rw [if_pos back, if_pos back]
    split_ifs with some'
    · refine ⟨⟨size, by show e.length - 1 ≤ 128; omega⟩, ?_⟩
      show e.line.take (e.length - 1) = (e.line.take e.length).dropLast
      have whole : min e.length e.line.length = e.length := Nat.min_eq_left (by omega)
      rw [List.dropLast_eq_take, List.take_take, List.length_take, whole,
        Nat.min_eq_left (Nat.sub_le _ _)]
    · have none' : e.length = 0 := by omega
      refine ⟨editing, ?_⟩
      rw [Editor.text, none', List.take_zero]
      rfl
  · rw [if_neg back, if_neg back]
    by_cases plain : 32 ≤ byte ∧ byte ≤ 126
    · rw [if_pos plain]
      by_cases room : e.length < 128
      · rw [if_pos room, if_pos ⟨plain.1, plain.2, room⟩]
        refine ⟨⟨by rw [List.length_set, size], room⟩, ?_⟩
        show (e.line.set e.length byte).take (e.length + 1) = e.line.take e.length ++ [byte]
        rw [List.take_add_one, List.getElem?_set_self (by omega),
          List.take_set_of_le (Nat.le_refl _)]
        rfl
      · rw [if_neg room, if_neg fun all => room all.2.2]
        exact ⟨editing, rfl⟩
    · rw [if_neg plain, if_neg fun all => plain ⟨all.1, all.2.1⟩]
      exact ⟨editing, rfl⟩

theorem keys_edit (bytes : List Byte) (editing : Editing e) :
    Editing (keys e bytes).1 ∧ (keys e bytes).2 = bytes.any ends ∧
      (keys e bytes).1.text = (bytes.takeWhile fun byte => !ends byte).foldl edit e.text := by
  induction bytes generalizing e with
  | nil => exact ⟨editing, rfl, rfl⟩
  | cons byte rest ih =>
      rw [keys, List.any_cons, List.takeWhile_cons]
      cases last : ends byte with
      | true =>
          rw [if_pos rfl]
          exact ⟨⟨editing.size, editing.inside⟩, rfl, rfl⟩
      | false =>
          obtain ⟨kept, edits⟩ := key_edits editing byte
          obtain ⟨kept', done, text⟩ := ih kept
          rw [if_neg Bool.false_ne_true]
          rw [edits] at text
          exact ⟨kept', done, text⟩

theorem readMore_edits {reads : List (List Byte)} (nonempty : ∀ read ∈ reads, read ≠ [])
    (enter : reads.flatten.any ends = true) (editing : Editing e) :
    ∃ e' rest, readMore e reads = some (e', rest) ∧ Editing e' ∧
      e'.text = (reads.flatten.takeWhile fun byte => !ends byte).foldl edit e.text := by
  induction reads generalizing e with
  | nil => exact absurd enter Bool.false_ne_true
  | cons read reads ih =>
      obtain ⟨kept, done, text⟩ := keys_edit read editing
      rw [List.flatten_cons, List.any_append] at enter
      cases read with
      | nil => exact absurd rfl (nonempty [] List.mem_cons_self)
      | cons byte more =>
          rw [readMore, List.flatten_cons]
          generalize byte :: more = bytes at *
          cases last : bytes.any ends with
          | true =>
              obtain ⟨byte', inside, ending⟩ := List.any_eq_true.mp last
              have cut : ((bytes ++ reads.flatten).takeWhile fun byte => !ends byte) =
                  bytes.takeWhile fun byte => !ends byte := by
                rw [List.takeWhile_append, if_neg fun same => ?_]
                have all := List.takeWhile_eq_self_iff.mp
                  ((List.takeWhile_prefix _).eq_of_length same) byte' inside
                rw [ending] at all
                exact Bool.false_ne_true all
              rw [cut, ← text]
              exact ⟨_, reads, if_pos (done.trans last), kept, rfl⟩
          | false =>
              have all : ∀ byte ∈ bytes, (!ends byte) = true := by
                intro byte inside
                rw [Bool.not_eq_true']
                exact Bool.eq_false_iff.mpr fun ending =>
                  Bool.false_ne_true (last.symm.trans (List.any_eq_true.mpr ⟨byte, inside, ending⟩))
              rw [last, Bool.false_or] at enter
              obtain ⟨e', rest, run, kept', text'⟩ :=
                ih (fun read member => nonempty read (List.mem_cons_of_mem _ member)) enter kept
              refine ⟨e', rest, (if_neg ?_).trans run, kept', ?_⟩
              · rw [done, last]
                exact Bool.false_ne_true
              · rw [text', text, List.takeWhile_append_of_pos all, List.foldl_append,
                  List.takeWhile_eq_self_iff.mpr all]

/-- Nothing but printable characters gets into a line, and no more of them than it holds. -/
structure Printable (text : List Byte) : Prop where
  plain : ∀ byte ∈ text, byte ≠ 0
  short : text.length ≤ 128

theorem edit_printable {text : List Byte} (printable : Printable text) (byte : Byte) :
    Printable (edit text byte) := by
  unfold edit
  split_ifs with back plain
  · refine ⟨fun other member => printable.plain other (List.mem_of_mem_dropLast member), ?_⟩
    have short := printable.short
    rw [List.length_dropLast]
    omega
  · refine ⟨fun other member => ?_, ?_⟩
    · rcases List.mem_append.mp member with before | last
      · exact printable.plain other before
      · obtain rfl := List.mem_singleton.mp last
        rintro rfl
        exact absurd plain.1 (by decide)
    · rw [List.length_append, List.length_singleton]
      exact plain.2.2
  · exact printable

theorem typed_printable (bytes : List Byte) : Printable (typed bytes) := by
  unfold typed
  generalize (bytes.takeWhile fun byte => !ends byte) = keys
  have start : Printable [] := ⟨fun byte member => absurd member List.not_mem_nil, Nat.zero_le _⟩
  generalize ([] : List Byte) = text at *
  induction keys generalizing text with
  | nil => exact start
  | cons byte rest ih => exact ih _ (edit_printable start byte)

end Editing

section Words

def words (line : List Byte) : List (List Byte) := (line.splitOn 32).filter fun word => word ≠ []

theorem splitOn_span (line : List Byte) : line.splitOn 32 = line.takeWhile (· != 32) ::
    match line.dropWhile (· != 32) with
    | [] => []
    | _ :: rest => rest.splitOn 32 := by
  induction line with
  | nil => rfl
  | cons byte rest ih =>
      rw [List.splitOn_cons_eq_if_modifyHead, List.takeWhile_cons, List.dropWhile_cons]
      by_cases space : byte = 32
      · subst space
        simp
      · have other : (byte != 32) = true := by simpa using space
        rw [if_neg (by simpa using space), if_pos other, if_pos other, ih, List.modifyHead_cons]

theorem words_space (line : List Byte) : words (32 :: line) = words line := by
  rw [words, splitOn_span]
  rfl

theorem words_dropWhile (line : List Byte) : words (line.dropWhile (· == 32)) = words line := by
  induction line with
  | nil => rfl
  | cons byte rest ih =>
      rw [List.dropWhile_cons]
      split_ifs with space
      · obtain rfl := beq_iff_eq.mp space
        rw [ih, words_space]
      · rfl

theorem splitOn_concat (line : List Byte) :
    (line ++ [32]).splitOn 32 = line.splitOn 32 ++ [[]] := by
  induction line with
  | nil => rfl
  | cons byte rest ih =>
      rw [List.cons_append, List.splitOn_cons_eq_if_modifyHead, List.splitOn_cons_eq_if_modifyHead,
        ih]
      split_ifs
      · rfl
      · cases pieces : rest.splitOn 32 with
        | nil => exact absurd pieces (List.splitOn_ne_nil 32 rest)
        | cons first more => rfl

theorem words_rdropWhile (line : List Byte) : words (line.rdropWhile (· == 32)) = words line := by
  induction line using List.reverseRecOn with
  | nil => rfl
  | append_singleton line byte ih =>
      rw [List.rdropWhile_concat]
      split_ifs with space
      · obtain rfl := beq_iff_eq.mp space
        rw [ih, words, words, splitOn_concat, List.filter_append]
        exact (List.append_nil _).symm
      · rfl

theorem words_trim (line : List Byte) : words (trim line) = words line := by
  rw [trim, words_rdropWhile, words_dropWhile]

theorem trim_sublist (line : List Byte) : (trim line).Sublist line :=
  (List.rdropWhile_prefix _ _).sublist.trans (List.dropWhile_sublist _)

theorem mem_words {line word : List Byte} {byte : Byte} (member : word ∈ words line)
    (inside : byte ∈ word) : byte ∈ line := by
  have whole : List.intercalate [32] (line.splitOn 32) = line := List.intercalate_splitOn 32
  rw [← whole]
  exact mem_intercalate (List.mem_of_mem_filter member) inside

theorem words_span {line : List Byte} (word : line.takeWhile (· != 32) ≠ []) :
    words line = line.takeWhile (· != 32) :: words (line.dropWhile (· != 32)) := by
  rw [words, splitOn_span, List.filter_cons_of_pos (by simpa using word)]
  cases behind : line.dropWhile (· != 32) with
  | nil => rfl
  | cons byte rest =>
      have space : byte = 32 := by
        have stop := List.head?_dropWhile_not (· != 32) line
        rw [behind] at stop
        simpa using stop
      rw [space, words_space]
      rfl

theorem first_word {line : List Byte} (some' : line.dropWhile (· == 32) ≠ []) :
    (line.dropWhile (· == 32)).takeWhile (· != 32) ≠ [] := by
  have first := List.head?_dropWhile_not (· == 32) line
  generalize line.dropWhile (· == 32) = rest at *
  cases rest with
  | nil => exact absurd rfl some'
  | cons byte more =>
      have other : (byte != 32) = true := by simpa using first
      rw [List.takeWhile_cons, if_pos other]
      exact List.cons_ne_nil _ _

theorem words_some {line : List Byte} (some' : trim line ≠ []) : words (trim line) ≠ [] := by
  have rest : line.dropWhile (· == 32) ≠ [] := by
    intro none'
    rw [trim, none'] at some'
    exact some' rfl
  rw [words_trim, ← words_dropWhile, words_span (first_word rest)]
  exact List.cons_ne_nil _ _

theorem words_whole {line : List Byte} {word : List Byte} (member : word ∈ words line) :
    word ≠ [] := by simpa using (List.mem_filter.mp member).2

theorem word_length {line word : List Byte} (member : word ∈ words line) :
    word.length ≤ line.length := by
  have total : ((line.splitOn 32).map fun word => word.length + 1).sum = line.length + 1 :=
    splitOn_length 32 line
  have part : word.length + 1 ≤ ((line.splitOn 32).map fun word => word.length + 1).sum :=
    List.single_le_sum (fun _ _ => Nat.zero_le _) _
      (List.mem_map_of_mem (List.mem_of_mem_filter member))
  omega

def strung (pieces : List (List Byte)) : List Byte := pieces.flatMap fun word => word ++ [0]

theorem strung_length (line : List Byte) : (strung (words line)).length ≤ line.length + 1 := by
  have total : ((line.splitOn 32).map fun word => word.length + 1).sum = line.length + 1 :=
    splitOn_length 32 line
  have fewer : (words line).Sublist (line.splitOn 32) := List.filter_sublist
  have part := (fewer.map fun word => word.length + 1).sum_le_sum fun _ _ => Nat.zero_le _
  have same : (strung (words line)).length =
      ((words line).map fun word => word.length + 1).sum := by
    rw [strung, List.length_flatMap]
    simp only [List.length_append, List.length_singleton]
  omega

end Words

section Packing

variable {b : Blob}

/-- What of `BLOB` is in use. -/
def Blob.text (b : Blob) : List Byte := b.bytes.take b.length

structure Packed (b : Blob) : Prop where
  size : b.bytes.length = 256
  inside : b.length ≤ 255

theorem Packed.text_length (packed : Packed b) : b.text.length = b.length := by
  have size := packed.size
  have inside := packed.inside
  rw [Blob.text, List.length_take]
  omega

theorem push_packed (packed : Packed b) (byte : Byte) (room : b.length < 255) :
    Packed (b.push byte) ∧ (b.push byte).text = b.text ++ [byte] ∧
      (b.push byte).count = b.count := by
  have size := packed.size
  rw [Blob.push, if_pos room]
  refine ⟨⟨by rw [List.length_set, size], room⟩, ?_, rfl⟩
  show (b.bytes.set b.length byte).take (b.length + 1) = b.bytes.take b.length ++ [byte]
  rw [List.take_add_one, List.getElem?_set_self (by omega), List.take_set_of_le (Nat.le_refl _)]
  rfl

theorem pushes_packed (word : List Byte) (packed : Packed b)
    (room : b.text.length + word.length ≤ 255) : Packed (word.foldl Blob.push b) ∧
      (word.foldl Blob.push b).text = b.text ++ word ∧
      (word.foldl Blob.push b).count = b.count := by
  induction word generalizing b with
  | nil => exact ⟨packed, (List.append_nil _).symm, rfl⟩
  | cons byte rest ih =>
      have length := packed.text_length
      rw [List.length_cons] at room
      obtain ⟨kept, text, count⟩ := push_packed packed byte (by omega)
      obtain ⟨kept', text', count'⟩ := ih kept (by
        rw [text, List.length_append, List.length_singleton]
        omega)
      refine ⟨kept', ?_, count'.trans count⟩
      rw [List.foldl_cons, text', text, List.append_assoc, List.singleton_append]

theorem word_packed (word : List Byte) (packed : Packed b)
    (room : b.text.length + word.length < 255) : Packed (b.word word) ∧
      (b.word word).text = b.text ++ (word ++ [0]) ∧ (b.word word).count = b.count + 1 := by
  obtain ⟨kept, text, count⟩ := pushes_packed word packed (Nat.le_of_lt room)
  have length := kept.text_length
  rw [text, List.length_append] at length
  obtain ⟨kept', text', count'⟩ := push_packed kept 0 (by omega)
  refine ⟨⟨kept'.size, kept'.inside⟩, ?_, ?_⟩
  · rw [← List.append_assoc, ← text]
    exact text'
  · exact congrArg (· + 1) (count'.trans count)

theorem pack_words {turns : Nat} {line : List Byte} (packed : Packed b)
    (enough : line.length ≤ turns) (room : b.text.length + (strung (words line)).length ≤ 255) :
    Packed (pack turns b line) ∧ (pack turns b line).text = b.text ++ strung (words line) ∧
      (pack turns b line).count = b.count + (words line).length := by
  induction turns generalizing b line with
  | zero =>
      obtain rfl : line = [] := List.length_eq_zero_iff.mp (Nat.le_zero.mp enough)
      exact ⟨packed, (List.append_nil _).symm, rfl⟩
  | succ turns ih =>
      have trimmed := words_dropWhile line
      rw [pack]
      by_cases none' : line.dropWhile (· == 32) = []
      · rw [none'] at trimmed
        rw [if_pos none', ← trimmed]
        exact ⟨packed, (List.append_nil _).symm, rfl⟩
      · have fewer : (line.dropWhile (· == 32)).length ≤ line.length :=
          (List.dropWhile_sublist _).length_le
        rw [if_neg none']
        have nonempty := first_word none'
        generalize line.dropWhile (· == 32) = rest at *
        have spans := words_span nonempty
        have shorter : (rest.takeWhile (· != 32)).length + (rest.dropWhile (· != 32)).length =
            rest.length := by
          rw [← List.length_append, List.takeWhile_append_dropWhile]
        have some' := List.length_pos_iff.mpr nonempty
        rw [← trimmed, spans] at room ⊢
        generalize rest.takeWhile (· != 32) = word at *
        generalize rest.dropWhile (· != 32) = behind at *
        have total : (strung (word :: words behind)).length =
            word.length + 1 + (strung (words behind)).length := by
          rw [strung, List.flatMap_cons, List.length_append, List.length_append]
          rfl
        obtain ⟨kept, text, count⟩ := word_packed word packed (by omega)
        obtain ⟨kept', text', count'⟩ := ih kept (show behind.length ≤ turns by omega) (by
          rw [text, List.length_append, List.length_append, List.length_singleton]
          omega)
        refine ⟨kept', ?_, ?_⟩
        · rw [text', text, List.append_assoc, strung, strung, List.flatMap_cons]
        · rw [count', count, List.length_cons]
          omega

end Packing

section Reaching

theorem splitOn_piece {word : List Byte} (plain : 0 ∉ word) (rest : List Byte) :
    (word ++ 0 :: rest).splitOn 0 = word :: rest.splitOn 0 := by
  induction word with
  | nil =>
      rw [List.nil_append, List.splitOn_cons_eq_if_modifyHead]
      rfl
  | cons byte more ih =>
      have other : ¬(byte == 0) = true := by
        rw [beq_iff_eq]
        rintro rfl
        exact plain List.mem_cons_self
      rw [List.cons_append, List.splitOn_cons_eq_if_modifyHead, if_neg other,
        ih fun inside => plain (List.mem_cons_of_mem _ inside), List.modifyHead_cons]

theorem arguments_strung {pieces : List (List Byte)} (plain : ∀ word ∈ pieces, 0 ∉ word)
    (whole : ∀ word ∈ pieces, word ≠ []) : arguments (strung pieces) pieces.length = pieces := by
  have split : (strung pieces).splitOn 0 = pieces ++ [[]] := by
    induction pieces with
    | nil => rfl
    | cons word rest ih =>
        rw [strung, List.flatMap_cons, List.append_assoc, List.singleton_append,
          splitOn_piece (plain word List.mem_cons_self)]
        exact congrArg (word :: ·) (ih (fun w member => plain w (List.mem_cons_of_mem _ member))
          fun w member => whole w (List.mem_cons_of_mem _ member))
  rw [arguments, split, List.filter_append, List.filter_eq_self.mpr fun word member => by
    simpa using whole word member]
  exact (congrArg (List.take _) (List.append_nil pieces)).trans List.take_length

theorem lengthOf_string {m : Bytes} {a : Word} {s : Argument} (string : StringAt m a s)
    (short : s.length < 256) : lengthOf m a.toNat = s.length := by
  obtain ⟨more, all⟩ := Nat.exists_eq_add_of_lt short
  have before : ∀ i ∈ List.range s.length, (m (a.toNat + i) != 0) = true := by
    intro i inside
    have below := List.mem_range.mp inside
    rw [string.bytes i below, bne_iff_ne]
    exact fun zero => string.nonzero (zero ▸ List.getElem_mem below)
  have stop : ¬(m (a.toNat + (s.length + 0)) != 0) = true := by
    rw [Nat.add_zero, string.ends]
    decide
  rw [lengthOf, all, Nat.add_assoc, List.range_add, List.takeWhile_append_of_pos before,
    List.range_succ_eq_map, List.map_cons, List.takeWhile_cons, if_neg stop, List.append_nil,
    List.length_range]

theorem string_bytes {m : Bytes} {a : Word} {s : Argument} (string : StringAt m a s) :
    (List.range s.length).map (fun k => m (a.toNat + k)) = s := by
  refine List.ext_getElem (by rw [List.length_map, List.length_range]) fun i left right => ?_
  rw [List.getElem_map, List.getElem_range]
  exact string.bytes i right

theorem echoFrom_placed {m : Bytes} {stack argv : Word} {addresses : List Word}
    {ss : List Argument} (placed : Placed m stack argv addresses ss)
    (short : ∀ s ∈ ss, s.length < 256) {left i : Nat} (here : i + left = ss.length) :
    echoFrom m ss.length argv.toNat left i = List.intercalate [32] (ss.drop i) := by
  induction left generalizing i with
  | zero =>
      have none' : ss.drop i = [] := List.drop_eq_nil_of_le (Nat.le_of_eq here.symm)
      rw [none']
      rfl
  | succ left ih =>
      have inside : i < ss.length := by omega
      have same : addresses.length = ss.length := placed.strings.length_eq
      have among : i < addresses.length := by omega
      have string : StringAt m addresses[i] ss[i] :=
        (List.forall₂_iff_get.mp placed.strings).2 i among inside
      have pointer := placed.array i among
      have nonzero : addresses[i] ≠ 0 := by
        intro zero
        have above := placed.above _ (List.getElem_mem among)
        rw [zero] at above
        exact absurd above (by simp)
      have size := lengthOf_string string (short _ (List.getElem_mem inside))
      rw [echoFrom, pointer, if_neg nonzero, size, string_bytes string, ih (by omega),
        List.drop_eq_getElem_cons inside]
      by_cases last : i + 1 < ss.length
      · rw [if_pos last, List.drop_eq_getElem_cons last, List.intercalate_cons_cons]
      · rw [if_neg last, List.drop_eq_nil_of_le (Nat.le_of_not_lt last), List.intercalate_singleton]
        exact (List.append_nil _).trans (List.append_nil _)

theorem started_with {load : Argument → Option Loaded} {bytes : List (BitVec 8)} {count : Nat}
    {image : Image} (found : program load bytes count = some image) :
    ∃ loaded, image = start loaded (arguments bytes count) := by
  unfold program at found
  split at found
  · cases found
  · cases found
  · rename_i name rest gathered
    obtain ⟨loaded, -, rfl⟩ := Option.map_eq_some_iff.mp found
    have same := gather_spec gathered (Nat.zero_le count)
    rw [List.nil_append, List.length_nil, Nat.sub_zero] at same
    exact ⟨loaded, by rw [same]; rfl⟩

theorem echo_started {k : Kernel} {env : Surroundings} {load : Argument → Option Loaded}
    {blob length count context : Word} {pieces : List (List Byte)} (fits : Fits context)
    (high : userSpaceEnd ≤ context.toNat)
    (found : arguments (loadBytes k.view blob length.toNat) count.toNat = pieces)
    (short : ∀ s ∈ pieces, s.length < 256)
    (started : (execBlob k env load blob length count context).1 = 0) :
    let k' := (execBlob k env load blob length count context).2
    let frame := readFrame k'.view context
    echo k'.view (frame frameRdi) (frame frameRsi) = List.intercalate [32] pieces.tail ++ [10] := by
  obtain ⟨small, few, image, made, frame, user⟩ := exec_starts fits high started
  obtain ⟨loaded, rfl⟩ := started_with made
  have bytes : (loadBytes k.view blob length.toNat).length ≤ 1024 := by
    rw [loadBytes, List.length_map, List.length_range]
    exact small
  have nonzero : ∀ s ∈ arguments (loadBytes k.view blob length.toNat) count.toNat, 0 ∉ s :=
    fun s member => not_mem_splitOn 0 _ s (List.mem_of_mem_filter (List.mem_of_mem_take member))
  have room := arguments_short bytes few
  rw [found] at nonzero room frame user
  obtain ⟨m, stack, argv, addresses, placed, number, shape⟩ :=
    arguments_placed (m := mapStack loaded.covered loaded.memory) nonzero room
  have image : start loaded pieces =
      ⟨loaded.root, m, loaded.entry, stack, BitVec.ofNat 64 pieces.length, argv⟩ := by
    unfold start
    rw [placed]
  rw [image] at frame user
  have top : userStackTop.toNat ≤ userSpaceEnd := by decide
  intro k' frame'
  have same : frame' = userFrame loaded.entry stack (BitVec.ofNat 64 pieces.length) argv := frame
  have there : Placed k'.view stack argv addresses pieces :=
    shape.congr fun x _ low => user x (lt_of_lt_of_le low top)
  have size : (BitVec.ofNat 64 pieces.length).toNat = pieces.length := by
    rw [BitVec.toNat_ofNat]
    omega
  rw [same]
  show echo k'.view (BitVec.ofNat 64 pieces.length) argv = _
  rw [echo, size, ← List.drop_one]
  congr 1
  cases pieces with
  | nil => rfl
  | cons first rest =>
      exact echoFrom_placed there short (by rw [List.length_cons]; omega)

theorem command_run {line run : List Byte} (command' : command line = .run run) :
    trim line ≠ [] ∧ trim line = run := by
  simp only [command] at command'
  split_ifs at command' with none'
  exact ⟨none', Command.run.inj command'⟩

theorem exec_packs {line buffer : List Byte} (some' : trim line ≠ []) (short : line.length ≤ 128)
    (size : buffer.length = 256) : ∃ b, execBlobOf buffer (trim line) = some b ∧
      b.text = strung (words (trim line)) ∧ b.count = (words (trim line)).length := by
  have fewer := (trim_sublist line).length_le
  have room := strung_length (trim line)
  have begun : Packed ⟨buffer, 0, 0⟩ := ⟨size, Nat.zero_le _⟩
  have nothing : (⟨buffer, 0, 0⟩ : Blob).text = [] := List.take_zero
  obtain ⟨-, bytes, count⟩ := pack_words begun (Nat.le_refl (trim line).length) (by
    rw [nothing, List.length_nil]
    omega)
  rw [nothing, List.nil_append] at bytes
  rw [Nat.zero_add] at count
  refine ⟨_, if_neg ?_, bytes, count⟩
  rw [count]
  exact fun zero => words_some some' (List.length_eq_zero_iff.mp zero)

/-- A line in whatever pieces it is read: the shell has it as it was typed with its corrections,
and if the line is a command that starts `echo`, its words but the first are what is written. -/
theorem typed_reaches_echo {reads : List (List Byte)} (nonempty : ∀ read ∈ reads, read ≠ [])
    (enter : reads.flatten.any ends = true) {line buffer : List Byte} (size : line.length = 128)
    (size' : buffer.length = 256) :
    ∃ e rest, readLine line reads = some (e, rest) ∧ e.text = typed reads.flatten ∧
      ∀ run, command e.text = .run run → ∃ b, execBlobOf buffer run = some b ∧
        words run = words e.text ∧ b.text = strung (words run) ∧ b.count = (words run).length ∧
        ∀ (k : Kernel) (env : Surroundings) (load : Argument → Option Loaded)
          (blob length count context : Word), Fits context → userSpaceEnd ≤ context.toNat →
          loadBytes k.view blob length.toNat = b.text → count.toNat = b.count →
          (execBlob k env load blob length count context).1 = 0 →
          let k' := (execBlob k env load blob length count context).2
          let frame := readFrame k'.view context
          echo k'.view (frame frameRdi) (frame frameRsi) =
            List.intercalate [32] (words e.text).tail ++ [10] := by
  obtain ⟨e, rest, run, -, text⟩ := readMore_edits (e := ⟨line, 0, []⟩) nonempty enter
    ⟨size, Nat.zero_le _⟩
  have printable : Printable e.text := text ▸ typed_printable reads.flatten
  refine ⟨e, rest, run, text, fun run command' => ?_⟩
  obtain ⟨some', rfl⟩ := command_run command'
  have short := printable.short
  have fewer := (trim_sublist e.text).length_le
  obtain ⟨b, packs, bytes, count'⟩ := exec_packs some' short size'
  refine ⟨b, packs, words_trim e.text, bytes, count', ?_⟩
  intro k env load blob length count context fits high loaded number started
  have plain : ∀ word ∈ words (trim e.text), 0 ∉ word := fun word member inside =>
    printable.plain 0 ((trim_sublist e.text).mem (mem_words member inside)) rfl
  have found : arguments (loadBytes k.view blob length.toNat) count.toNat =
      words (trim e.text) := by
    rw [loaded, number, bytes, count']
    exact arguments_strung plain fun word => words_whole
  rw [← words_trim e.text]
  exact echo_started fits high found (fun word member => by
    have less := word_length member
    omega) started

section Scenario

/-- `ec`, a slip, its correction, and the rest of `echo  x y`, in three reads. -/
private def keystrokes : List (List Byte) :=
  [[101, 99, 111], [8, 104, 111, 32], [32, 120, 32, 121, 13]]

private def child : Kernel where
  tasks := Function.update (fun _ => empty) 1
    { empty with state := .ready, addressSpace := some (rootAt 0x5000) }
  current := 1
  enabled := true
  ticks := 0
  activeRoot := rootAt 0x5000
  kernelRoot := rootAt 0x1000
  rsp0 := 0
  sched := FiveAM.Sched.Mechanism.new
  pipes := fun _ => .empty
  orphans := []
  memory := ⟨fun _ => 0, fun _ a =>
    if 0x400000 ≤ a then [101, 99, 104, 111, 0, 120, 0, 121, 0].getD (a - 0x400000) 0 else 0⟩

private def withBlob : Surroundings where
  access := Process.Pipes.lowHalf
  space := none
  stack := 0
  image := none
  input := []

private def anyProgram : Argument → Option Loaded :=
  fun _ => some ⟨rootAt 0x6000, fun _ => 0, 0x400000, false⟩

theorem typed_reaches_echo_two :
    let k' := (execBlob child withBlob anyProgram 0x400000 9 3 0x8000001000).2
    let frame := readFrame k'.view 0x8000001000
    ∃ e rest, readLine (List.replicate 128 0) keystrokes = some (e, rest) ∧
      command e.text = .run [101, 99, 104, 111, 32, 32, 120, 32, 121] ∧
      echo k'.view (frame frameRdi) (frame frameRsi) = [120, 32, 121, 10] := by
  obtain ⟨e, rest, line, text, reaches⟩ := @typed_reaches_echo keystrokes (by decide) (by decide)
    (List.replicate 128 0) (List.replicate 256 0) List.length_replicate List.length_replicate
  have runs : command e.text = .run [101, 99, 104, 111, 32, 32, 120, 32, 121] := by
    rw [text]
    decide
  obtain ⟨b, -, -, bytes, count, arrives⟩ := reaches _ runs
  have output := arrives child withBlob anyProgram 0x400000 9 3 0x8000001000 (by decide) (by decide)
    (by rw [bytes]; decide) (by rw [count]; decide) (by decide +kernel)
  rw [text] at output
  exact ⟨e, rest, line, runs, output.trans (by decide)⟩

end Scenario

end Reaching

end FiveAM.Userland.CommandLine
