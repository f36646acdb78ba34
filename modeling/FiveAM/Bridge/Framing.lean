/- GID: FiveAM/Bridge/Framing
   source: bridge/bridge.py, kernel/src/ai.rs
   digest: Replies from the bridge, read off the serial port up to a line `END`. -/

import FiveAM.Lib.Splitting
import Mathlib.Data.List.DropRight
import Mathlib.Data.List.SplitLengths
import Mathlib.Data.Fintype.Basic
import Mathlib.Data.String.Basic
import Mathlib.Tactic.IntervalCases
import Mathlib.Tactic.SplitIfs

set_option autoImplicit false
set_option relaxedAutoImplicit false

namespace FiveAM.Bridge.Framing

open FiveAM.Lib.Splitting

/-- What Python text consists of; lone surrogates are possible. -/
abbrev CodePoint := Fin 0x110000
abbrev Text := List CodePoint

section Sending

/-- What `str.strip` takes away. -/
def isSpace (c : CodePoint) : Bool :=
  (9 ≤ c ∧ c ≤ 13) ∨ (0x1c ≤ c ∧ c ≤ 0x20) ∨ c = 0x85 ∨ c = 0xa0 ∨ c = 0x1680 ∨
    (0x2000 ≤ c ∧ c ≤ 0x200a) ∨ c = 0x2028 ∨ c = 0x2029 ∨ c = 0x202f ∨ c = 0x205f ∨ c = 0x3000

def strip (line : Text) : Text := (line.dropWhile isSpace).rdropWhile isSpace

/-- `"END"`. -/
def endLine : Text := [69, 78, 68]

/-- A lone `END` gets a space before it. -/
def safeLine (line : Text) : Text := if strip line = endLine then 32 :: endLine else line

def safe (text : Text) : Text := [10].intercalate ((text.splitOn 10).map safeLine)

/-- UTF-8 under `"replace"`: a question mark for what is no scalar value. -/
def encodeChar (c : CodePoint) : List UInt8 :=
  if valid : c.val < 0xd800 ∨ 0xdfff < c.val ∧ c.val < 0x110000 then
    String.utf8EncodeChar (Char.ofNatAux c.val valid)
  else [63]

def encode (text : Text) : List UInt8 := text.flatMap encodeChar

/-- The body of a reply as it is sent, with the newline that comes before `END`. -/
def body (text : Text) : List UInt8 := encode (safe text) ++ [10]

def sendReply (text : Text) : List UInt8 := body text ++ [69, 78, 68, 10]

end Sending

section Reading

def terminator : List UInt8 := [69, 78, 68]

def replyTimeoutSpins : Nat := 60000000

/-- Whether the line has shown nothing yet, how much of `TERMINATOR` is held back, and the
bytes printed so far, each as the character of its number. -/
structure Reader where
  lineStart : Bool
  matched : Nat
  printed : List UInt8
  deriving DecidableEq

def start : Reader := ⟨true, 0, []⟩

/-- One byte; none when it ends the terminator line. -/
def feed (r : Reader) (byte : UInt8) : Option Reader :=
  if r.lineStart = true ∧ r.matched < terminator.length ∧ terminator[r.matched]? = some byte then
    some { r with matched := r.matched + 1 }
  else if r.matched = terminator.length ∧ (byte = 10 ∨ byte = 13) then none
  else
    let emitted := r.printed ++ terminator.take r.matched
    if byte = 13 then some ⟨r.lineStart, 0, emitted⟩
    else some ⟨decide (byte = 10), 0, emitted ++ [byte]⟩

/-- What `try_recv` finds: a byte, or nothing while the clock shows so many ticks. -/
inductive Poll where
  | received (byte : UInt8)
  | nothing (ticks : Nat)
  deriving DecidableEq

/-- The two clocks: ticks against a deadline, or a count of spins. -/
structure Clock where
  useTicks : Bool
  deadline : Nat

def expired (clock : Clock) (spins ticks : Nat) : Bool :=
  if clock.useTicks then clock.deadline < ticks else replyTimeoutSpins < spins

/-- How the reply ends: the terminator, or nobody answers, with what was printed and the
polls that are left, or more polls are needed. -/
inductive Reply where
  | answered (printed : List UInt8) (rest : List Poll)
  | noAnswer (printed : List UInt8) (rest : List Poll)
  | reading (r : Reader)
  deriving DecidableEq

def readFrom (clock : Clock) (spins : Nat) (r : Reader) : List Poll → Reply
  | [] => .reading r
  | .nothing ticks :: rest =>
      if expired clock (spins + 1) ticks then .noAnswer (r.printed ++ [10]) rest
      else readFrom clock (spins + 1) r rest
  | .received byte :: rest =>
      match feed r byte with
      | none => .answered (r.printed ++ [10]) rest
      | some r => readFrom clock 0 r rest

def readReply (clock : Clock) (polls : List Poll) : Reply := readFrom clock 0 start polls

end Reading

def received (polls : List Poll) : List UInt8 :=
  polls.filterMap fun
    | .received byte => some byte
    | .nothing _ => none

/-- No poll of the run finds the clock expired. -/
def InTime (clock : Clock) : Nat → List Poll → Prop
  | _, [] => True
  | spins, .nothing ticks :: rest =>
      expired clock (spins + 1) ticks = false ∧ InTime clock (spins + 1) rest
  | _, .received _ :: rest => InTime clock 0 rest

instance decidableInTime (clock : Clock) :
    (spins : Nat) → (polls : List Poll) → Decidable (InTime clock spins polls)
  | _, [] => isTrue trivial
  | spins, .nothing _ :: rest =>
      have := decidableInTime clock (spins + 1) rest
      inferInstanceAs (Decidable (_ ∧ _))
  | _, .received _ :: rest => decidableInTime clock 0 rest

def withoutReturns (bytes : List UInt8) : List UInt8 := bytes.filter fun byte => byte ≠ 13

/-- A reply sent in the polls `during` is read to its end and no further, and its body is
printed before the closing newline. -/
def Framed (clock : Clock) (text : Text) (during later : List Poll) : Prop :=
  ∃ rest, readReply clock (during ++ later) =
      .answered (withoutReturns (body text) ++ [10]) rest ∧
    received rest = received later

/-- Between carriage returns the line shows `END`, and nothing before it but beginnings of
`END`. -/
def endsEarly (line : Text) : Bool :=
  ((line.splitOn 13).dropWhile fun piece =>
    decide (piece = [] ∨ piece = [69] ∨ piece = [69, 78])).head? = some endLine

/-- No line that `send_reply` passes as it is ends early. -/
def NoEarlyEnd (text : Text) : Prop :=
  ∀ line ∈ text.splitOn 10, strip line ≠ endLine → endsEarly line = false

section Encoding

private theorem encodeChar_cases (c : CodePoint) :
    c.val < 128 ∧ encodeChar c = [UInt8.ofNat c.val] ∨
      encodeChar c ≠ [] ∧ ∀ byte ∈ encodeChar c, byte = 63 ∨ 128 ≤ byte.toNat := by
  unfold encodeChar
  by_cases valid : c.val < 0xd800 ∨ 0xdfff < c.val ∧ c.val < 0x110000
  · obtain ⟨d, same, number⟩ : ∃ d, Char.ofNatAux c.val valid = d ∧ d.val.toNat = c.val :=
      ⟨_, rfl, rfl⟩
    rw [dif_pos valid, same]
    unfold String.utf8EncodeChar
    simp only [number]
    split_ifs with one two three
    · exact Or.inl ⟨by omega, rfl⟩
    · refine Or.inr ⟨by simp, fun byte member => Or.inr ?_⟩
      simp only [List.mem_cons, List.not_mem_nil, or_false] at member
      rcases member with rfl | rfl <;> simp only [UInt8.toNat_ofNat'] <;> omega
    · refine Or.inr ⟨by simp, fun byte member => Or.inr ?_⟩
      simp only [List.mem_cons, List.not_mem_nil, or_false] at member
      rcases member with rfl | rfl | rfl <;> simp only [UInt8.toNat_ofNat'] <;> omega
    · refine Or.inr ⟨by simp, fun byte member => Or.inr ?_⟩
      simp only [List.mem_cons, List.not_mem_nil, or_false] at member
      rcases member with rfl | rfl | rfl | rfl <;> simp only [UInt8.toNat_ofNat'] <;> omega
  · rw [dif_neg valid]
    refine Or.inr ⟨by simp, fun byte member => Or.inl ?_⟩
    simpa using member

/-- A mark is an ASCII character that stands for nothing else. -/
def Mark (c : CodePoint) : Prop := c.val < 128 ∧ c.val ≠ 63

private theorem mark_byte {c : CodePoint} (mark : Mark c) :
    encodeChar c = [UInt8.ofNat c.val] ∧ (UInt8.ofNat c.val).toNat = c.val := by
  have size : (UInt8.ofNat c.val).toNat = c.val := by
    rw [UInt8.toNat_ofNat']
    have low := mark.1
    omega
  refine ⟨?_, size⟩
  unfold encodeChar
  have low := mark.1
  have valid : c.val < 0xd800 ∨ 0xdfff < c.val ∧ c.val < 0x110000 := Or.inl (by omega)
  obtain ⟨d, same, number⟩ : ∃ d, Char.ofNatAux c.val valid = d ∧ d.val.toNat = c.val :=
    ⟨_, rfl, rfl⟩
  rw [dif_pos valid, same]
  unfold String.utf8EncodeChar
  simp only [number]
  rw [if_pos (by omega)]

private theorem mark_of_mem {c mark : CodePoint} (low : Mark mark)
    (member : UInt8.ofNat mark.val ∈ encodeChar c) : c = mark := by
  have size := (mark_byte low).2
  rcases encodeChar_cases c with ⟨ascii, same⟩ | ⟨-, others⟩
  · rw [same, List.mem_singleton] at member
    refine Fin.ext ?_
    have equal := congrArg UInt8.toNat member
    rw [size, UInt8.toNat_ofNat'] at equal
    omega
  · rcases others _ member with question | high
    · have equal := congrArg UInt8.toNat question
      rw [size] at equal
      exact absurd equal low.2
    · rw [size] at high
      exact absurd low.1 (by omega)

theorem not_mem_encode {text : Text} {mark : CodePoint} (low : Mark mark) (none : mark ∉ text) :
    UInt8.ofNat mark.val ∉ encode text := by
  intro member
  obtain ⟨c, inside, byte⟩ := List.mem_flatMap.mp member
  exact none (mark_of_mem low byte ▸ inside)

theorem encode_inj {word : Text} (marks : ∀ c ∈ word, Mark c) {text : Text}
    (same : encode text = encode word) : text = word := by
  induction word generalizing text with
  | nil =>
      cases text with
      | nil => rfl
      | cons c rest =>
          simp only [encode, List.flatMap_cons, List.flatMap_nil, List.append_eq_nil_iff] at same
          rcases encodeChar_cases c with ⟨-, ascii⟩ | ⟨some, -⟩
          · exact absurd (ascii.symm.trans same.1) (by simp)
          · exact absurd same.1 some
  | cons m word ih =>
      have low := marks m List.mem_cons_self
      have first : encode (m :: word) = UInt8.ofNat m.val :: encode word := by
        simp only [encode, List.flatMap_cons, (mark_byte low).1, List.singleton_append]
      rw [first] at same
      cases text with
      | nil => simp [encode] at same
      | cons c rest =>
          have split : encode (c :: rest) = encodeChar c ++ encode rest := List.flatMap_cons
          rw [split] at same
          cases shape : encodeChar c with
          | nil =>
              rcases encodeChar_cases c with ⟨-, ascii⟩ | ⟨some, -⟩
              · exact absurd (ascii.symm.trans shape) (by simp)
              · exact absurd shape some
          | cons b more =>
              rw [shape, List.cons_append, List.cons.injEq] at same
              have here : c = m := mark_of_mem low (by rw [shape, same.1]; exact List.mem_cons_self)
              subst here
              rw [(mark_byte low).1, List.cons.injEq] at shape
              rw [← shape.2, List.nil_append] at same
              rw [ih (fun c member => marks c (List.mem_cons_of_mem _ member)) same.2]

private theorem encode_intercalate {sep : CodePoint} (low : Mark sep) (pieces : List Text) :
    encode ([sep].intercalate pieces) =
      [UInt8.ofNat sep.val].intercalate (pieces.map encode) := by
  induction pieces with
  | nil => rfl
  | cons p rest ih =>
      cases rest with
      | nil => simp [encode]
      | cons q rest =>
          rw [List.intercalate_cons_cons, List.map_cons, List.map_cons,
            List.intercalate_cons_cons, ← List.map_cons, ← ih]
          simp only [encode, List.flatMap_append, List.flatMap_cons, List.flatMap_nil,
            List.append_nil, (mark_byte low).1]

end Encoding

section Feeding

variable {k : Nat} {out p : List UInt8} {byte : UInt8}

private theorem feed_mid (other : byte ≠ 10) :
    feed ⟨false, 0, out⟩ byte = some ⟨false, 0, out ++ withoutReturns [byte]⟩ := by
  unfold feed withoutReturns
  simp only [Bool.false_eq_true, false_and, if_false, terminator, List.length_cons,
    List.length_nil, List.take_zero, List.append_nil]
  by_cases returned : byte = 13
  · simp [returned]
  · simp [returned, other]

private theorem mid_run (inside : 10 ∉ p) :
    p.foldlM feed ⟨false, 0, out⟩ = some ⟨false, 0, out ++ withoutReturns p⟩ := by
  induction p generalizing out with
  | nil => simp [withoutReturns]
  | cons b p ih =>
      rw [List.mem_cons, not_or] at inside
      rw [List.foldlM_cons, feed_mid (Ne.symm inside.1)]
      refine (ih inside.2).trans ?_
      have split : withoutReturns (b :: p) = withoutReturns [b] ++ withoutReturns p :=
        List.filter_append [b] p
      rw [split, List.append_assoc]

private theorem mid_line (inside : 10 ∉ p) :
    (p ++ [10]).foldlM feed ⟨false, 0, out⟩ =
      some ⟨true, 0, out ++ withoutReturns p ++ [10]⟩ := by
  rw [List.foldlM_append, mid_run inside]
  simp [feed, terminator]

private theorem feed_held (low : k < 3) (next : terminator[k]? = some byte) :
    feed ⟨true, k, out⟩ byte = some ⟨true, k + 1, out⟩ := by
  unfold feed
  rw [if_pos ⟨rfl, low, next⟩]

private theorem feed_other (next : terminator[k]? ≠ some byte) (line : byte ≠ 10)
    (return' : byte ≠ 13) :
    feed ⟨true, k, out⟩ byte = some ⟨false, 0, out ++ terminator.take k ++ [byte]⟩ := by
  unfold feed
  rw [if_neg fun all => next all.2.2, if_neg fun stop => stop.2.elim line return']
  simp [return', line]

private theorem feed_end (full : k = 3) (stop : byte = 10 ∨ byte = 13) :
    feed ⟨true, k, out⟩ byte = none := by
  subst full
  rcases stop with rfl | rfl <;> rfl

private theorem feed_newline (low : k < 3) :
    feed ⟨true, k, out⟩ 10 = some ⟨true, 0, out ++ terminator.take k ++ [10]⟩ := by
  have next : terminator[k]? ≠ some 10 := by
    interval_cases k <;> decide
  unfold feed
  rw [if_neg fun all => next all.2.2, if_neg fun full => absurd full.1 (by simpa [terminator] using low.ne)]
  simp

private theorem feed_return (low : k < 3) :
    feed ⟨true, k, out⟩ 13 = some ⟨true, 0, out ++ terminator.take k⟩ := by
  have next : terminator[k]? ≠ some 13 := by
    interval_cases k <;> decide
  unfold feed
  rw [if_neg fun all => next all.2.2, if_neg fun full => absurd full.1 (by simpa [terminator] using low.ne)]
  simp

private theorem piece_held (beginning : p <+: terminator.drop k) :
    p.foldlM feed ⟨true, k, out⟩ = some ⟨true, k + p.length, out⟩ := by
  induction p generalizing k with
  | nil => rfl
  | cons b p ih =>
      obtain ⟨more, whole⟩ := beginning
      have next : terminator[k]? = some b := by
        have first : (terminator.drop k)[0]? = terminator[k]? := List.getElem?_drop
        rw [← whole] at first
        exact first.symm
      obtain ⟨low, here⟩ := List.getElem?_eq_some_iff.mp next
      rw [List.drop_eq_getElem_cons low, List.cons_append, List.cons.injEq] at whole
      rw [List.foldlM_cons, feed_held low next]
      refine (ih ⟨more, whole.2⟩).trans ?_
      rw [List.length_cons, Nat.add_right_comm, Nat.add_assoc]

private theorem piece_shown (line : 10 ∉ p) (return' : 13 ∉ p) (other : ¬p <+: terminator.drop k) :
    p.foldlM feed ⟨true, k, out⟩ = some ⟨false, 0, out ++ terminator.take k ++ p⟩ := by
  induction p generalizing k with
  | nil => exact absurd List.nil_prefix other
  | cons b p ih =>
      rw [List.mem_cons, not_or] at line return'
      rw [List.foldlM_cons]
      by_cases next : terminator[k]? = some b
      · obtain ⟨low, here⟩ := List.getElem?_eq_some_iff.mp next
        have later : ¬p <+: terminator.drop (k + 1) := fun beginning => other (by
          rw [List.drop_eq_getElem_cons low, here]
          exact List.cons_prefix_cons.mpr ⟨rfl, beginning⟩)
        rw [feed_held low next]
        refine (ih line.2 return'.2 later).trans ?_
        rw [List.take_succ_eq_append_getElem low, here]
        simp only [List.append_assoc, List.singleton_append]
      · rw [feed_other next (Ne.symm line.1) (Ne.symm return'.1)]
        refine (mid_run line.2).trans ?_
        have same : withoutReturns p = p := List.filter_eq_self.mpr fun c member =>
          decide_eq_true fun (cr : c = 13) => return'.2 (cr ▸ member)
        rw [same, List.append_assoc _ [b], List.singleton_append]

end Feeding

section Lines

/-- A piece that leaves the reader at the beginning of its line. -/
def beginning (piece : List UInt8) : Bool :=
  decide (piece = [] ∨ piece = [69] ∨ piece = [69, 78])

/-- The reader finds `END` between the pieces of a line. -/
def early (pieces : List (List UInt8)) : Bool :=
  (pieces.dropWhile beginning).head? = some terminator

private theorem early_cons (p : List UInt8) (rest : List (List UInt8)) :
    early (p :: rest) = if beginning p then early rest else decide (p = terminator) := by
  unfold early
  rw [List.dropWhile_cons]
  split_ifs
  · rfl
  · simp only [List.head?_cons, Option.some.injEq]

private theorem beginning_starts {piece : List UInt8} (small : beginning piece = true) :
    piece.length < 3 ∧ terminator.take piece.length = piece ∧ piece <+: terminator.drop 0 := by
  rcases of_decide_eq_true small with rfl | rfl | rfl <;> decide

private theorem prefix_cases {piece : List UInt8} (shown : piece <+: terminator) :
    beginning piece = true ∨ piece = terminator := by
  have short : piece.length ≤ 3 := shown.length_le
  rw [List.prefix_iff_eq_take] at shown
  generalize piece.length = n at shown short
  subst shown
  interval_cases n <;> decide

private theorem withoutReturns_append (p q : List UInt8) :
    withoutReturns (p ++ q) = withoutReturns p ++ withoutReturns q := List.filter_append p q

private theorem withoutReturns_self {p : List UInt8} (none : 13 ∉ p) : withoutReturns p = p :=
  List.filter_eq_self.mpr fun _ member => decide_eq_true fun cr => none (cr ▸ member)

private theorem line_inside {pieces : List (List UInt8)} (line : ∀ piece ∈ pieces, 10 ∉ piece) :
    10 ∉ [13].intercalate pieces := by
  induction pieces with
  | nil => exact List.not_mem_nil
  | cons p rest ih =>
      have first := line p List.mem_cons_self
      have others := ih fun piece member => line piece (List.mem_cons_of_mem p member)
      cases rest with
      | nil => simpa using first
      | cons q rest =>
          rw [List.intercalate_cons_cons]
          simp only [List.mem_append, List.mem_singleton, not_or]
          exact ⟨⟨first, by decide⟩, others⟩

/-- The rest of a line behind a piece, with the newline. -/
def behind : List (List UInt8) → List UInt8
  | [] => [10]
  | piece :: rest => 13 :: ([13].intercalate (piece :: rest) ++ [10])

private theorem line_cons (p : List UInt8) (rest : List (List UInt8)) :
    [13].intercalate (p :: rest) ++ [10] = p ++ behind rest := by
  cases rest with
  | nil => rw [List.intercalate_singleton, behind]
  | cons q rest => simp [List.intercalate_cons_cons, behind]

private theorem behind_end (rest : List (List UInt8)) (out : List UInt8) :
    (behind rest).foldlM feed ⟨true, 3, out⟩ = none := by
  cases rest with
  | nil => rw [behind, List.foldlM_cons, feed_end rfl (Or.inl rfl), Option.bind_eq_bind, Option.bind_none]
  | cons q rest =>
      have stop : feed ⟨true, 3, out⟩ 13 = none := feed_end rfl (Or.inr rfl)
      simp only [behind, List.foldlM_cons, stop, Option.bind_eq_bind, Option.bind_none]

private theorem behind_mid {rest : List (List UInt8)} (line : ∀ piece ∈ rest, 10 ∉ piece)
    (out : List UInt8) :
    (behind rest).foldlM feed ⟨false, 0, out⟩ = some ⟨true, 0, out ++ withoutReturns (behind rest)⟩ := by
  cases rest with
  | nil =>
      refine (mid_line (p := []) List.not_mem_nil).trans ?_
      rw [withoutReturns, List.filter_nil, List.append_nil]
      rfl
  | cons q rest =>
      have inside : 10 ∉ 13 :: [13].intercalate (q :: rest) := by
        rw [List.mem_cons, not_or]
        exact ⟨by decide, line_inside line⟩
      refine (mid_line inside).trans ?_
      rw [List.append_assoc, behind, ← List.cons_append, withoutReturns_append]
      rfl

theorem line_run {pieces : List (List UInt8)} (some' : pieces ≠ [])
    (line : ∀ piece ∈ pieces, 10 ∉ piece) (return' : ∀ piece ∈ pieces, 13 ∉ piece)
    (out : List UInt8) :
    ([13].intercalate pieces ++ [10]).foldlM feed ⟨true, 0, out⟩ =
      if early pieces then none
      else some ⟨true, 0, out ++ withoutReturns ([13].intercalate pieces ++ [10])⟩ := by
  induction pieces generalizing out with
  | nil => exact absurd rfl some'
  | cons p rest ih =>
      have line₁ := line p List.mem_cons_self
      have return₁ := return' p List.mem_cons_self
      have later := fun piece member => line piece (List.mem_cons_of_mem p member)
      rw [line_cons, early_cons, List.foldlM_append, withoutReturns_append, withoutReturns_self return₁]
      by_cases shown : p <+: terminator
      · rcases prefix_cases shown with small | whole
        · obtain ⟨short, taken, held⟩ := beginning_starts small
          rw [if_pos small, piece_held held]
          cases rest with
          | nil =>
              simp only [Option.bind_eq_bind, Option.bind_some, behind, List.foldlM_cons,
                List.foldlM_nil, Nat.zero_add, feed_newline short, taken, ← List.append_assoc]
              rfl
          | cons q rest =>
              have step : (behind (q :: rest)).foldlM feed ⟨true, p.length, out⟩ =
                  ([13].intercalate (q :: rest) ++ [10]).foldlM feed ⟨true, 0, out ++ p⟩ := by
                simp only [behind, List.foldlM_cons, feed_return short, taken, Option.bind_eq_bind,
                  Option.bind_some]
              have skipped : withoutReturns (behind (q :: rest)) =
                  withoutReturns ([13].intercalate (q :: rest) ++ [10]) := rfl
              rw [skipped, ← List.append_assoc, ← ih (List.cons_ne_nil q rest) later
                (fun piece member => return' piece (List.mem_cons_of_mem p member)), ← step]
              simp only [Option.bind_eq_bind, Option.bind_some, Nat.zero_add]
        · subst whole
          have full : beginning terminator = false := by decide
          have held : terminator.foldlM feed ⟨true, 0, out⟩ = some ⟨true, 3, out⟩ :=
            piece_held (k := 0) List.prefix_rfl
          rw [full, if_neg Bool.false_ne_true, decide_eq_true rfl, if_pos rfl, held]
          exact behind_end rest out
      · have big : beginning p = false := Bool.eq_false_of_not_eq_true fun small =>
          shown (beginning_starts small).2.2
        have other : p ≠ terminator := fun same => shown (same ▸ List.prefix_rfl)
        rw [big, if_neg Bool.false_ne_true, decide_eq_false other, if_neg Bool.false_ne_true,
          piece_shown (k := 0) line₁ return₁ shown, List.take_zero, List.append_nil,
          ← List.append_assoc]
        exact behind_mid later (out ++ p)

end Lines

section Bodies

private theorem encode_beginning (piece : Text) :
    beginning (encode piece) = decide (piece = [] ∨ piece = [69] ∨ piece = [69, 78]) := by
  have marks : ∀ word ∈ [([] : Text), [69], [69, 78]], ∀ c ∈ word, Mark c := by simp [Mark]
  refine decide_eq_decide.mpr ⟨?_, ?_⟩
  · rintro (same | same | same)
    · exact Or.inl (encode_inj (marks [] (by simp)) same)
    · exact Or.inr (Or.inl (encode_inj (marks [69] (by simp)) same))
    · exact Or.inr (Or.inr (encode_inj (marks [69, 78] (by simp)) same))
  · rintro (rfl | rfl | rfl)
    · exact Or.inl rfl
    · exact Or.inr (Or.inl rfl)
    · exact Or.inr (Or.inr rfl)

private theorem encode_endLine (piece : Text) : encode piece = terminator ↔ piece = endLine := by
  have marks : ∀ c ∈ endLine, Mark c := by simp [Mark, endLine]
  refine ⟨fun same => encode_inj marks same, ?_⟩
  rintro rfl
  rfl

private theorem early_encode (pieces : List Text) :
    early (pieces.map encode) = ((pieces.dropWhile fun piece =>
      decide (piece = [] ∨ piece = [69] ∨ piece = [69, 78])).head? = some endLine : Bool) := by
  induction pieces with
  | nil => decide
  | cons piece rest ih =>
      rw [List.map_cons, early_cons, encode_beginning, List.dropWhile_cons]
      split_ifs
      · exact ih
      · simp only [List.head?_cons, Option.some.injEq, encode_endLine]

private theorem mark_ten : Mark 10 := by
  unfold Mark
  decide

private theorem mark_thirteen : Mark 13 := by
  unfold Mark
  decide

theorem text_line_run {line : Text} (inside : 10 ∉ line) (out : List UInt8) :
    (encode line ++ [10]).foldlM feed ⟨true, 0, out⟩ =
      if endsEarly line then none else some ⟨true, 0, out ++ withoutReturns (encode line ++ [10])⟩ := by
  have whole : [13].intercalate ((line.splitOn 13).map encode) = encode line := by
    refine (encode_intercalate mark_thirteen _).symm.trans ?_
    rw [List.intercalate_splitOn]
  rw [← whole]
  refine (line_run ?_ ?_ ?_ out).trans ?_
  · simp [List.splitOn_ne_nil]
  · intro bytes member
    obtain ⟨piece, among, rfl⟩ := List.mem_map.mp member
    refine not_mem_encode mark_ten fun deep => inside ?_
    have joined : [13].intercalate (line.splitOn 13) = line := List.intercalate_splitOn 13
    rw [← joined]
    exact mem_intercalate among deep
  · intro bytes member
    obtain ⟨piece, among, rfl⟩ := List.mem_map.mp member
    exact not_mem_encode mark_thirteen (not_mem_splitOn 13 line piece among)
  · rw [early_encode]
    rfl

theorem lines_run {lines : List Text} (some' : lines ≠ []) (inside : ∀ line ∈ lines, 10 ∉ line)
    (out : List UInt8) :
    (encode ([10].intercalate lines) ++ [10]).foldlM feed ⟨true, 0, out⟩ =
      if lines.any endsEarly then none
      else some ⟨true, 0, out ++ withoutReturns (encode ([10].intercalate lines) ++ [10])⟩ := by
  induction lines generalizing out with
  | nil => exact absurd rfl some'
  | cons line rest ih =>
      have here := inside line List.mem_cons_self
      cases rest with
      | nil =>
          rw [List.intercalate_singleton, text_line_run here, List.any_cons, List.any_nil,
            Bool.or_false]
      | cons next rest =>
          have split : encode ([10].intercalate (line :: next :: rest)) ++ [10] =
              (encode line ++ [10]) ++ (encode ([10].intercalate (next :: rest)) ++ [10]) := by
            rw [List.intercalate_cons_cons]
            simp only [encode, List.flatMap_append, List.append_assoc]
            rfl
          rw [split, List.foldlM_append, text_line_run here, List.any_cons]
          cases early' : endsEarly line with
          | true => rfl
          | false =>
              rw [Bool.false_or, if_neg Bool.false_ne_true, withoutReturns_append _ (encode _ ++ _),
                ← List.append_assoc]
              exact ih (List.cons_ne_nil next rest)
                (fun line member => inside line (List.mem_cons_of_mem _ member)) _

private theorem safeLine_inside {line : Text} (inside : 10 ∉ line) : 10 ∉ safeLine line := by
  unfold safeLine
  split_ifs
  · decide
  · exact inside

private theorem safeLine_early (line : Text) :
    endsEarly (safeLine line) = true ↔ strip line ≠ endLine ∧ endsEarly line = true := by
  unfold safeLine
  split_ifs with lone
  · have spaced : endsEarly (32 :: endLine) = false := by decide
    rw [spaced]
    exact ⟨fun none => absurd none Bool.false_ne_true, fun all => absurd lone all.1⟩
  · exact ⟨fun early => ⟨lone, early⟩, And.right⟩

theorem body_run (text : Text) :
    (NoEarlyEnd text ∧ (body text).foldlM feed start = some ⟨true, 0, withoutReturns (body text)⟩) ∨
      (¬NoEarlyEnd text ∧ (body text).foldlM feed start = none) := by
  have run := @lines_run ((text.splitOn 10).map safeLine) (by simp [List.splitOn_ne_nil])
    (fun line member => by
      obtain ⟨raw, among, rfl⟩ := List.mem_map.mp member
      exact safeLine_inside (not_mem_splitOn 10 text raw among)) []
  have whole : ((text.splitOn 10).map safeLine).any endsEarly = true ↔ ¬NoEarlyEnd text := by
    unfold NoEarlyEnd
    push Not
    simp only [List.any_eq_true, List.mem_map, exists_exists_and_eq_and, safeLine_early,
      ne_eq, Bool.not_eq_false]
  by_cases none' : NoEarlyEnd text
  · refine Or.inl ⟨none', run.trans ?_⟩
    rw [if_neg fun all => whole.mp all none']
    rfl
  · refine Or.inr ⟨none', run.trans ?_⟩
    rw [if_pos (whole.mpr none')]

end Bodies

section Polling

variable {clock : Clock} {during later : List Poll}

theorem read_stop {pre post : List UInt8} {byte : UInt8} {r r' : Reader} {spins : Nat}
    (soon : InTime clock spins during) (bytes : received during = pre ++ byte :: post)
    (before : pre.foldlM feed r = some r') (stop : feed r' byte = none) :
    ∃ rest, readFrom clock spins r (during ++ later) = .answered (r'.printed ++ [10]) rest ∧
      received rest = post ++ received later := by
  induction during generalizing pre r spins with
  | nil => simp [received] at bytes
  | cons poll polls ih =>
      cases poll with
      | nothing ticks =>
          obtain ⟨waits, soon⟩ := soon
          rw [List.cons_append, readFrom, waits, if_neg Bool.false_ne_true]
          exact ih soon bytes before
      | received b =>
          have split : received (.received b :: polls) = b :: received polls := rfl
          rw [split] at bytes
          rw [List.cons_append, readFrom]
          cases pre with
          | nil =>
              obtain ⟨rfl, tail⟩ := List.cons.inj bytes
              obtain rfl := Option.some.inj before
              rw [stop]
              refine ⟨polls ++ later, rfl, ?_⟩
              rw [← tail]
              exact List.filterMap_append
          | cons first pre =>
              obtain ⟨rfl, tail⟩ := List.cons.inj bytes
              rw [List.foldlM_cons, Option.bind_eq_bind, Option.bind_eq_some_iff] at before
              obtain ⟨between, fed, before⟩ := before
              rw [fed]
              exact ih soon tail before

private theorem stops_at {bytes : List UInt8} {r : Reader} (stops : bytes.foldlM feed r = none) :
    ∃ pre byte post r', bytes = pre ++ byte :: post ∧ pre.foldlM feed r = some r' ∧
      feed r' byte = none := by
  induction bytes generalizing r with
  | nil => cases stops
  | cons b bytes ih =>
      rw [List.foldlM_cons] at stops
      cases fed : feed r b with
      | none => exact ⟨[], b, bytes, r, rfl, rfl, fed⟩
      | some next =>
          rw [fed, Option.bind_eq_bind, Option.bind_some] at stops
          obtain ⟨pre, byte, post, r', rfl, before, stop⟩ := ih stops
          refine ⟨b :: pre, byte, post, r', rfl, ?_, stop⟩
          rw [List.foldlM_cons, fed]
          exact before

/-- A reply is framed if and only if no line of it ends early. -/
theorem reply_framed_iff (clock : Clock) (text : Text) (during later : List Poll)
    (sent : received during = sendReply text) (soon : InTime clock 0 during) :
    Framed clock text during later ↔ NoEarlyEnd text := by
  rcases body_run text with ⟨none', run⟩ | ⟨early', run⟩
  · refine iff_of_true ?_ none'
    have before : (body text ++ [69, 78, 68]).foldlM feed start =
        some ⟨true, 3, withoutReturns (body text)⟩ := by
      rw [List.foldlM_append, run]
      rfl
    have bytes : received during = (body text ++ [69, 78, 68]) ++ 10 :: [] := by
      rw [sent, sendReply, List.append_assoc]
      rfl
    obtain ⟨rest, answer, left⟩ := read_stop soon bytes before (feed_end rfl (Or.inl rfl))
    exact ⟨rest, answer, left⟩
  · refine iff_of_false ?_ early'
    obtain ⟨pre, byte, post, r', split, before, stop⟩ := stops_at run
    have bytes : received during = pre ++ byte :: (post ++ [69, 78, 68, 10]) := by
      rw [sent, sendReply, split, List.append_assoc]
      rfl
    obtain ⟨rest, answer, left⟩ := @read_stop clock during later _ _ _ _ _ _ soon bytes before stop
    rintro ⟨rest', answer', left'⟩
    have same : rest = rest' := by
      have both := answer.symm.trans answer'
      injection both
    rw [← same, left] at left'
    have lengths := congrArg List.length left'
    simp only [List.length_append, List.length_cons] at lengths
    omega

/-- `"ok"` arrives with a pause, and the next reply is already there. -/
theorem reply_framed_iff_pause :
    Framed ⟨true, 5⟩ [111, 107]
      [.received 111, .nothing 5, .received 107, .received 10, .received 69, .received 78,
        .received 68, .received 10] [.received 72] ↔ NoEarlyEnd [111, 107] :=
  reply_framed_iff ⟨true, 5⟩ [111, 107] _ _ (by decide +kernel) (by decide)

/-- `"END\rfoo"` is no lone `END` for `send_reply`, and the terminator for `read_reply`. -/
theorem early_end : ¬∀ (clock : Clock) (text : Text) (during later : List Poll),
    received during = sendReply text → InTime clock 0 during →
      Framed clock text during later := by
  intro all
  obtain ⟨rest, answer, -⟩ := all ⟨true, 0⟩ [69, 78, 68, 13, 102, 111, 111]
    ((sendReply [69, 78, 68, 13, 102, 111, 111]).map .received) []
    (by decide +kernel) (by decide +kernel)
  have stopped : readReply ⟨true, 0⟩
      ((sendReply [69, 78, 68, 13, 102, 111, 111]).map .received ++ []) =
        .answered [10] ([102, 111, 111, 10, 69, 78, 68, 10].map .received) := by decide +kernel
  rw [stopped] at answer
  injection answer with printed
  exact absurd printed (by decide +kernel)

end Polling

end FiveAM.Bridge.Framing
