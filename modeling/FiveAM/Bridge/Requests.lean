/- GID: FiveAM/Bridge/Requests
   source: kernel/src/ai.rs, bridge/bridge.py
   digest: Requests to the bridge, with the machine state attached, read from any chunks. -/

import FiveAM.Bridge.Framing
import FiveAM.Lib.Utf8

set_option autoImplicit false
set_option relaxedAutoImplicit false

namespace FiveAM.Bridge.Requests

open FiveAM.Bridge.Framing
open FiveAM.Lib.Utf8 (ofChar decode decode_encode)

section Asking

def bytes (text : List Char) : List UInt8 := text.flatMap String.utf8EncodeChar

/-- What `StateLine::capture` reads off the machine. -/
structure Registers where
  cr0 : BitVec 64
  cr2 : BitVec 64
  cr3 : BitVec 64
  cr4 : BitVec 64
  cs : BitVec 16
  rsp : BitVec 64
  ticks : BitVec 64

/-- `{:#x}`. -/
def hex (n : Nat) : List Char := '0' :: 'x' :: Nat.toDigits 16 n

def decimal (n : Nat) : List Char := Nat.toDigits 10 n

/-- The words of the line that `write!` is given, with their values. -/
def stateFields (r : Registers) : List (List Char × List Char) :=
  [("state: cr0=".toList, hex r.cr0.toNat), (" cr2=".toList, hex r.cr2.toNat),
    (" cr3=".toList, hex r.cr3.toNat), (" cr4=".toList, hex r.cr4.toNat),
    (" cs=".toList, hex r.cs.toNat), (" rsp=".toList, hex r.rsp.toNat),
    (" ring=".toList, decimal (r.cs &&& 3).toNat), (" ticks=".toList, decimal r.ticks.toNat)]

def stateText (r : Registers) : List Char := (stateFields r).flatMap fun f => f.1 ++ f.2

def stateCapacity : Nat := 320

structure StateLine where
  buffer : List UInt8
  fits : buffer.length ≤ stateCapacity

namespace StateLine

def empty : StateLine := ⟨[], Nat.zero_le _⟩

def push (line : StateLine) (byte : UInt8) : StateLine :=
  if room : line.buffer.length < stateCapacity then
    ⟨line.buffer ++ [byte], by rw [List.length_append]; exact room⟩
  else line

def writeStr (line : StateLine) (text : List Char) : StateLine := (bytes text).foldl push line

def capture (r : Registers) : StateLine := empty.writeStr (stateText r)

def asStr (line : StateLine) : List UInt8 :=
  if ByteArray.validateUTF8 ⟨line.buffer.toArray⟩ then line.buffer
  else bytes "state: unavailable".toList

end StateLine

def writeLine (text : List UInt8) : List UInt8 := text ++ [10]

/-- What `exchange` sends. -/
def exchange (verb : List Char) (state : List UInt8) (question : List Char) : List UInt8 :=
  writeLine (bytes verb) ++ writeLine state ++ (bytes "q: ".toList ++ bytes question ++ [10]) ++
    writeLine (bytes "END".toList)

def ask (r : Registers) (question : List Char) : List UInt8 :=
  exchange "5AMOS/1 ASK".toList (StateLine.capture r).asStr question

end Asking

section Parsing

def text (s : String) : Text := s.toList.map ofChar

structure Request where
  verb : Text
  state : Text
  question : Text
  deriving DecidableEq

/-- `b"\nEND\n" in buffer.replace(b"\r", b"")`. -/
def complete (buffer : List UInt8) : Bool :=
  decide ([10, 69, 78, 68, 10] <:+: withoutReturns buffer)

def parseLines (r : Request) : List Text → Request
  | [] => r
  | line :: rest =>
      if (text "5AMOS/1 ").isPrefixOf line then
        parseLines { r with verb := strip (line.drop 8) } rest
      else if (text "state:").isPrefixOf line then parseLines { r with state := line } rest
      else if (text "q: ").isPrefixOf line then
        parseLines { r with question := line.drop 3 } rest
      else if line = endLine then r
      else parseLines r rest

def parse (buffer : List UInt8) : Request :=
  parseLines ⟨text "ASK", [], []⟩ ((decode (withoutReturns buffer)).splitOn (ofChar '\n'))

/-- `read_request`: the request and the chunks that are left; none when the line is closed
before it is whole. -/
def readRequest (buffer : List UInt8) : List (List UInt8) → Option (Request × List (List UInt8))
  | [] => if complete buffer then some (parse buffer, []) else none
  | chunk :: rest =>
      if complete buffer then some (parse buffer, chunk :: rest)
      else if chunk = [] then none
      else readRequest (buffer ++ chunk) rest

end Parsing

section Lines

def Plain (c : Char) : Prop := c.val.toNat < 128 ∧ c ≠ '\n' ∧ c ≠ '\r'

instance (c : Char) : Decidable (Plain c) := inferInstanceAs (Decidable (_ ∧ _ ∧ _))

theorem digits_char {b : Nat} (base : 1 < b) (n : Nat) {c : Char}
    (member : c ∈ Nat.toDigits b n) : ∃ d < b, c = Nat.digitChar d := by
  induction n using Nat.strong_induction_on with
  | _ n ih =>
      rw [Nat.toDigits_eq_if base] at member
      split_ifs at member with small
      · exact ⟨n, small, List.mem_singleton.mp member⟩
      · rcases List.mem_append.mp member with front | last
        · exact ih (n / b) (Nat.div_lt_self (by omega) base) front
        · exact ⟨n % b, Nat.mod_lt _ (by omega), List.mem_singleton.mp last⟩

private theorem digits_plain {b : Nat} (base : 1 < b) (small : b ≤ 16) (n : Nat) :
    ∀ c ∈ Nat.toDigits b n, Plain c := by
  intro c member
  obtain ⟨d, low, rfl⟩ := digits_char base n member
  have all : ∀ d < 16, Plain (Nat.digitChar d) := by decide
  exact all d (low.trans_le small)

/-- A field of the line: nothing that ends it, and not too long. -/
structure Fits (f : List Char × List Char) : Prop where
  word : ∀ c ∈ f.1, Plain c
  value : ∀ c ∈ f.2, Plain c
  short : f.1.length + f.2.length ≤ 40

private theorem hex_fits {w : Nat} (word : BitVec w) (narrow : w ≤ 64) {name : List Char}
    (plain : (name.all fun c => Plain c) = true ∧ name.length ≤ 20) :
    Fits (name, hex word.toNat) := by
  have short : (Nat.toDigits 16 word.toNat).length ≤ 16 := by
    refine (Nat.length_toDigits_le_iff (by decide) (by decide)).mpr ?_
    exact word.isLt.trans_le ((Nat.pow_le_pow_right (by decide) narrow).trans (by decide))
  refine ⟨by simpa using plain.1, fun c member => ?_, ?_⟩
  · rcases List.mem_cons.mp member with rfl | member
    · decide
    · rcases List.mem_cons.mp member with rfl | member
      · decide
      · exact digits_plain (by decide) le_rfl _ c member
  · have named := plain.2
    simp only [hex, List.length_cons]
    omega

private theorem decimal_fits {w : Nat} (word : BitVec w) (narrow : w ≤ 64) {name : List Char}
    (plain : (name.all fun c => Plain c) = true ∧ name.length ≤ 20) :
    Fits (name, decimal word.toNat) := by
  have short : (decimal word.toNat).length ≤ 20 := by
    refine (Nat.length_toDigits_le_iff (by decide) (by decide)).mpr ?_
    exact word.isLt.trans_le ((Nat.pow_le_pow_right (by decide) narrow).trans (by decide))
  exact ⟨by simpa using plain.1, digits_plain (by decide) (by decide) _,
    Nat.add_le_add plain.2 short⟩

private theorem fields_fit (r : Registers) : ∀ f ∈ stateFields r, Fits f := by
  simp only [stateFields, List.forall_mem_cons]
  exact ⟨hex_fits _ le_rfl (by decide), hex_fits _ le_rfl (by decide),
    hex_fits _ le_rfl (by decide), hex_fits _ le_rfl (by decide),
    hex_fits _ (by decide) (by decide), hex_fits _ le_rfl (by decide),
    decimal_fits _ (by decide) (by decide), decimal_fits _ le_rfl (by decide), by simp⟩

theorem stateText_plain (r : Registers) : ∀ c ∈ stateText r, Plain c := by
  intro c member
  obtain ⟨f, among, inside⟩ := List.mem_flatMap.mp member
  exact (List.mem_append.mp inside).elim ((fields_fit r f among).word c)
    ((fields_fit r f among).value c)

theorem stateText_length (r : Registers) : (stateText r).length ≤ stateCapacity := by
  have few : (stateFields r).length = 8 := rfl
  have bound : ∀ fs : List (List Char × List Char), (∀ f ∈ fs, Fits f) →
      (fs.flatMap fun f => f.1 ++ f.2).length ≤ 40 * fs.length := by
    intro fs fit
    induction fs with
    | nil => exact Nat.le_refl _
    | cons f rest ih =>
        have here := (fit f List.mem_cons_self).short
        have later := ih fun g member => fit g (List.mem_cons_of_mem f member)
        rw [List.flatMap_cons, List.length_append, List.length_append, List.length_cons]
        omega
  refine (bound (stateFields r) (fields_fit r)).trans ?_
  rw [few, stateCapacity]

theorem bytes_length {text : List Char} (plain : ∀ c ∈ text, Plain c) :
    (bytes text).length = text.length := by
  induction text with
  | nil => rfl
  | cons c rest ih =>
      have ascii : (String.utf8EncodeChar c).length = 1 := by
        unfold String.utf8EncodeChar
        have small := (plain c List.mem_cons_self).1
        simp only [show c.val.toNat ≤ 0x7f by omega, if_true, List.length_cons, List.length_nil]
      rw [bytes, List.flatMap_cons, List.length_append, ascii, List.length_cons, Nat.add_comm]
      exact congrArg (· + 1) (ih fun c member => plain c (List.mem_cons_of_mem _ member))

private theorem push_all (more : List UInt8) (line : StateLine)
    (room : line.buffer.length + more.length ≤ stateCapacity) :
    (more.foldl StateLine.push line).buffer = line.buffer ++ more := by
  induction more generalizing line with
  | nil => rw [List.foldl_nil, List.append_nil]
  | cons byte rest ih =>
      rw [List.length_cons] at room
      have pushed : (line.push byte).buffer = line.buffer ++ [byte] := by
        unfold StateLine.push
        rw [dif_pos (by omega)]
      rw [List.foldl_cons, ih _ (by rw [pushed, List.length_append, List.length_singleton]; omega),
        pushed, List.append_assoc, List.singleton_append]

private theorem valid_bytes (text : List Char) :
    ByteArray.validateUTF8 ⟨(bytes text).toArray⟩ = true := by
  refine ByteArray.validateUTF8_eq_true_iff.mpr ⟨text, ?_⟩
  refine ByteArray.ext ?_
  rw [List.utf8Encode, List.data_toByteArray]
  rfl

theorem capture_asStr (r : Registers) : (StateLine.capture r).asStr = bytes (stateText r) := by
  have whole : (StateLine.capture r).buffer = bytes (stateText r) := by
    refine (push_all _ StateLine.empty ?_).trans (List.nil_append _)
    rw [bytes_length (stateText_plain r)]
    exact (Nat.zero_add _).trans_le (stateText_length r)
  rw [StateLine.asStr, whole, valid_bytes, if_pos rfl]

end Lines

section Framing

theorem encodeChar_ofChar (c : Char) : encodeChar (ofChar c) = String.utf8EncodeChar c := by
  have valid : c.val.toNat < 0xd800 ∨ 0xdfff < c.val.toNat ∧ c.val.toNat < 0x110000 := c.valid
  unfold encodeChar
  exact dif_pos valid

theorem encode_map (t : List Char) : encode (t.map ofChar) = bytes t := by
  rw [encode, List.flatMap_map, bytes]
  exact List.flatMap_congr fun c _ => encodeChar_ofChar c

theorem bytes_append (s t : List Char) : bytes (s ++ t) = bytes s ++ bytes t := List.flatMap_append

private theorem ofChar_inj {c d : Char} (same : ofChar c = ofChar d) : c = d :=
  Char.ext (UInt32.toNat_inj.mp (Fin.mk.inj same))

private theorem not_mem_bytes {t : List Char} {mark : Char} (low : Mark (ofChar mark))
    (none : mark ∉ t) : UInt8.ofNat (ofChar mark).val ∉ bytes t := by
  rw [← encode_map]
  refine not_mem_encode low fun member => ?_
  obtain ⟨c, inside, same⟩ := List.mem_map.mp member
  exact none (ofChar_inj same ▸ inside)

private theorem no_newline {t : List Char} (none : '\n' ∉ t) : 10 ∉ bytes t :=
  not_mem_bytes (by unfold Mark; decide) none

theorem withoutReturns_bytes (t : List Char) :
    withoutReturns (bytes t) = bytes (t.filter fun c => c ≠ '\r') := by
  induction t with
  | nil => rfl
  | cons c rest ih =>
      have split : bytes (c :: rest) = bytes [c] ++ bytes rest := bytes_append [c] rest
      rw [split, withoutReturns, List.filter_append]
      change withoutReturns (bytes [c]) ++ withoutReturns (bytes rest) = _
      rw [ih, List.filter_cons]
      by_cases cr : c = '\r'
      · subst cr
        rfl
      · have kept : withoutReturns (bytes [c]) = bytes [c] := by
          refine List.filter_eq_self.mpr fun byte member => decide_eq_true fun same => ?_
          subst same
          have absent : '\r' ∉ [c] := fun inside => cr (List.mem_singleton.mp inside).symm
          exact not_mem_bytes (by unfold Mark; decide) absent member
        rw [kept, if_pos (by simpa using cr)]
        exact (bytes_append [c] _).symm

private def lines (r : Registers) (question : List Char) : List (List Char) :=
  ["5AMOS/1 ASK".toList, stateText r, "q: ".toList ++ question.filter (fun c => c ≠ '\r'),
    "END".toList, []]

private theorem plain_returns {t : List Char} (plain : ∀ c ∈ t, Plain c) :
    t.filter (fun c => c ≠ '\r') = t :=
  List.filter_eq_self.mpr fun c member => decide_eq_true (plain c member).2.2

theorem ask_lines (r : Registers) (question : List Char) :
    withoutReturns (ask r question) = bytes (['\n'].intercalate (lines r question)) := by
  have whole : ask r question = bytes ("5AMOS/1 ASK".toList ++ ['\n'] ++ stateText r ++ ['\n'] ++
      ("q: ".toList ++ question) ++ ['\n'] ++ "END".toList ++ ['\n']) := by
    simp only [ask, exchange, writeLine, capture_asStr, bytes_append, List.append_assoc]
    rfl
  rw [whole, withoutReturns_bytes]
  congr 1
  simp only [List.filter_append, plain_returns (stateText_plain r), lines,
    List.intercalate_cons_cons, List.intercalate_singleton, List.append_assoc]
  rfl

private theorem lines_inside {r : Registers} {question : List Char} (line : '\n' ∉ question) :
    ∀ l ∈ lines r question, '\n' ∉ l := by
  simp only [lines, List.forall_mem_cons]
  refine ⟨by decide, fun member => (stateText_plain r _ member).2.1 rfl, ?_, by decide, by simp⟩
  rw [List.mem_append, not_or]
  exact ⟨by decide, fun member => line (List.mem_of_mem_filter member)⟩

private theorem flatMap_intercalate {α β : Type} (f : α → List β) (sep : α) (mark : β)
    (one : f sep = [mark]) (pieces : List (List α)) :
    ([sep].intercalate pieces).flatMap f =
      [mark].intercalate (pieces.map fun piece => piece.flatMap f) := by
  induction pieces with
  | nil => rfl
  | cons piece rest ih =>
      cases rest with
      | nil => rw [List.intercalate_singleton, List.map_singleton, List.intercalate_singleton]
      | cons next rest =>
          rw [List.intercalate_cons_cons, List.flatMap_append, List.flatMap_append, ih,
            List.flatMap_singleton, one]
          simp only [List.map_cons, List.intercalate_cons_cons]

theorem ask_split {r : Registers} {question : List Char} (line : '\n' ∉ question) :
    (withoutReturns (ask r question)).splitOn 10 = (lines r question).map bytes := by
  rw [ask_lines]
  unfold bytes
  rw [flatMap_intercalate String.utf8EncodeChar '\n' 10 rfl]
  refine List.splitOn_intercalate 10 (fun l member => ?_) (by simp [lines])
  obtain ⟨word, inside, rfl⟩ := List.mem_map.mp member
  exact no_newline (lines_inside line word inside)

private theorem last_mark {a b c e : List UInt8} {before after : List (List UInt8)}
    (some' : before ≠ []) (second : b ≠ e) (third : c ≠ e) (nonempty : e ≠ [])
    (same : before ++ ([e] ++ after) = [a, b, c, e, []]) : after = [[]] := by
  rcases before with - | ⟨w, - | ⟨x, - | ⟨y, - | ⟨z, more⟩⟩⟩⟩
  · exact absurd rfl some'
  · exact absurd (List.cons.inj (List.cons.inj same).2).1.symm second
  · exact absurd (List.cons.inj (List.cons.inj (List.cons.inj same).2).2).1.symm third
  · exact (List.cons.inj (List.cons.inj (List.cons.inj (List.cons.inj same).2).2).2).2
  · have rest := (List.cons.inj (List.cons.inj (List.cons.inj (List.cons.inj same).2).2).2).2
    cases more with
    | nil => exact absurd (List.cons.inj rest).1 nonempty
    | cons last more => exact absurd (List.cons.inj rest).2 (by simp)

private theorem starts_other {s : List Char} {b c : UInt8} {rest : List UInt8}
    (start : (bytes s).head? = some b) (other : b ≠ c) : bytes s ≠ c :: rest := by
  intro same
  rw [same, List.head?_cons] at start
  exact other (Option.some.inj start).symm

theorem complete_only {r : Registers} {question : List Char} (line : '\n' ∉ question)
    {front back : List UInt8} (whole : front ++ back = ask r question) :
    complete front = true ↔ back = [] := by
  have parts : withoutReturns front ++ withoutReturns back = withoutReturns (ask r question) := by
    rw [← whole]
    exact (List.filter_append front back).symm
  refine ⟨fun full => ?_, ?_⟩
  · obtain ⟨u, v, here⟩ := of_decide_eq_true full
    have shape : withoutReturns (ask r question) =
        u ++ 10 :: ([69, 78, 68] ++ 10 :: (v ++ withoutReturns back)) := by
      rw [← parts, ← here]
      simp
    have middle : List.splitOn 10 ([69, 78, 68] : List UInt8) = [[69, 78, 68]] :=
      List.splitOn_eq_singleton (by decide)
    have split := ask_split (r := r) line
    rw [shape, List.splitOn_append_cons_self, List.splitOn_append_cons_self, middle] at split
    have after : (v ++ withoutReturns back).splitOn 10 = [[]] :=
      last_mark (List.splitOn_ne_nil 10 u) (starts_other rfl (by decide))
        (starts_other rfl (by decide)) (List.cons_ne_nil _ _) split
    have none : v ++ withoutReturns back = [] := by
      have joined := congrArg [10].intercalate after
      rwa [List.intercalate_splitOn, List.intercalate_singleton] at joined
    by_contra more
    have ends : (front ++ back).getLast? = some 10 := by
      rw [whole]
      unfold ask exchange writeLine
      rw [← List.append_assoc]
      exact List.getLast?_concat
    rw [List.getLast?_append_of_ne_nil _ more] at ends
    have kept : (10 : UInt8) ∈ withoutReturns back :=
      List.mem_filter.mpr ⟨List.mem_of_getLast? ends, rfl⟩
    rw [(List.append_eq_nil_iff.mp none).2] at kept
    exact absurd kept List.not_mem_nil
  · rintro rfl
    rw [List.append_nil] at whole
    subst whole
    refine decide_eq_true ⟨bytes (['\n'].intercalate ((lines r question).take 3)), [], ?_⟩
    rw [ask_lines]
    simp only [lines, List.take, List.intercalate_cons_cons, List.intercalate_singleton,
      bytes_append, List.append_assoc, List.append_nil]
    rfl

end Framing

section RoundTrip

private theorem decode_lines {r : Registers} {question : List Char} (line : '\n' ∉ question) :
    (decode (withoutReturns (ask r question))).splitOn (ofChar '\n') =
      (lines r question).map fun l => l.map ofChar := by
  rw [ask_lines, bytes, decode_encode, List.map_eq_flatMap,
    flatMap_intercalate (fun c => [ofChar c]) '\n' (ofChar '\n') rfl]
  simp only [← List.map_eq_flatMap]
  refine List.splitOn_intercalate (ofChar '\n') (fun l member => ?_) (by simp [lines])
  obtain ⟨word, inside, rfl⟩ := List.mem_map.mp member
  intro found
  obtain ⟨c, here, same⟩ := List.mem_map.mp found
  exact lines_inside line word inside (ofChar_inj (d := '\n') same ▸ here)

theorem parse_ask {r : Registers} {question : List Char} (line : '\n' ∉ question) :
    parse (ask r question) =
      ⟨text "ASK", (stateText r).map ofChar,
        (question.filter fun c => c ≠ '\r').map ofChar⟩ := by
  rw [parse, decode_lines line]
  have verb : (text "5AMOS/1 ").isPrefixOf (text "5AMOS/1 ASK") = true := by decide
  have asked : strip ((text "5AMOS/1 ASK").drop 8) = text "ASK" := by decide
  have state : (text "5AMOS/1 ").isPrefixOf ((stateText r).map ofChar) = false ∧
      (text "state:").isPrefixOf ((stateText r).map ofChar) = true := ⟨rfl, rfl⟩
  have body : ∀ q : List Char, (text "5AMOS/1 ").isPrefixOf (("q: ".toList ++ q).map ofChar) =
      false ∧ (text "state:").isPrefixOf (("q: ".toList ++ q).map ofChar) = false ∧
      (text "q: ").isPrefixOf (("q: ".toList ++ q).map ofChar) = true ∧
      (("q: ".toList ++ q).map ofChar).drop 3 = q.map ofChar :=
    fun q => ⟨rfl, rfl, rfl, rfl⟩
  have close : (text "5AMOS/1 ").isPrefixOf endLine = false ∧
      (text "state:").isPrefixOf endLine = false ∧ (text "q: ").isPrefixOf endLine = false := by
    decide
  obtain ⟨other, word, question', rest⟩ := body (question.filter fun c => c ≠ '\r')
  change parseLines _ [text "5AMOS/1 ASK", (stateText r).map ofChar,
    ("q: ".toList ++ question.filter fun c => c ≠ '\r').map ofChar, endLine, []] = _
  rw [parseLines, if_pos verb, asked, parseLines, state.1, state.2, parseLines, other, word,
    question', rest, parseLines, close.1, close.2.1, close.2.2]
  rfl

/-- Whatever pieces a request arrives in, the bridge reads one request, with the state of the
machine and the question in it, and takes those pieces and no more. -/
theorem request_round_trip {r : Registers} {question : List Char} (line : '\n' ∉ question)
    {chunks : List (List UInt8)} (some' : ∀ chunk ∈ chunks, chunk ≠ [])
    (sent : chunks.flatten = ask r question) (later : List (List UInt8)) :
    readRequest [] (chunks ++ later) =
      some (⟨text "ASK", (stateText r).map ofChar,
        (question.filter fun c => c ≠ '\r').map ofChar⟩, later) := by
  suffices run : ∀ (chunks : List (List UInt8)) (front : List UInt8),
      (∀ chunk ∈ chunks, chunk ≠ []) → front ++ chunks.flatten = ask r question →
      readRequest front (chunks ++ later) = some (parse (ask r question), later) by
    rw [run chunks [] some' sent, parse_ask line]
  intro chunks
  induction chunks with
  | nil =>
      intro front _ whole
      rw [List.flatten_nil] at whole
      have full := (complete_only line whole).mpr rfl
      rw [List.append_nil] at whole
      subst whole
      cases later with
      | nil => exact if_pos full
      | cons chunk rest => exact if_pos full
  | cons chunk rest ih =>
      intro front some' whole
      have more : chunk ++ rest.flatten ≠ [] := fun none =>
        some' chunk List.mem_cons_self (List.append_eq_nil_iff.mp none).1
      have waiting : ¬ complete front = true := fun full =>
        more ((complete_only line whole).mp full)
      rw [List.cons_append, readRequest, if_neg waiting,
        if_neg (some' chunk List.mem_cons_self)]
      refine ih _ (fun c member => some' c (List.mem_cons_of_mem chunk member)) ?_
      rw [List.append_assoc]
      exact whole

theorem request_round_trip_pieces :
    readRequest [] ([(ask ⟨0x80000011, 0, 0x1000, 0x20, 8, 0x7ff0, 91⟩ ['w', 'h', 'y']).take 9,
      (ask ⟨0x80000011, 0, 0x1000, 0x20, 8, 0x7ff0, 91⟩ ['w', 'h', 'y']).drop 9] ++ [[53]]) =
      some (⟨text "ASK", (stateText ⟨0x80000011, 0, 0x1000, 0x20, 8, 0x7ff0, 91⟩).map ofChar,
        text "why"⟩, [[53]]) := by
  have line : '\n' ∉ ['w', 'h', 'y'] := by decide
  refine request_round_trip line ?_ ?_ _
  · decide +kernel
  · rw [List.flatten_cons, List.flatten_cons, List.flatten_nil, List.append_nil]
    exact List.take_append_drop 9 _

end RoundTrip

end FiveAM.Bridge.Requests
