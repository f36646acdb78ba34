/- GID: FiveAM/Llm/Ramdisk
   source: boot/src/main.rs, kernel/src/llm.rs
   digest: The blob that carries a model and its tokenizer, packed on the host and read at boot. -/

import FiveAM.Llm.ModelSafety
import FiveAM.Llm.Tokenizer

set_option autoImplicit false
set_option relaxedAutoImplicit false

namespace FiveAM.Llm.Ramdisk

open FiveAM.Lib.Checked FiveAM.Lib.Loops FiveAM.Llm.ModelFile
open FiveAM.Llm.ModelSafety (pointFloats noKeyHeads)
open FiveAM.Llm.Tokenizer (Token)

section Source

def magic : Nat := 0x354d4c4d

/-- `to_le_bytes` of a number of `n` bytes. -/
def toLeBytes : Nat → Nat → List UInt8
  | 0, _ => []
  | n + 1, value => UInt8.ofNat value :: toLeBytes n (value / 256)

/-- The blob `pack_assets` writes. -/
def packAssets (model tokenizer : List UInt8) : List UInt8 :=
  toLeBytes 4 magic ++ toLeBytes 8 model.length ++ toLeBytes 8 tokenizer.length ++ model ++
    tokenizer

/-- One entry of `tokenizer.bin`: the bits of a score, a length and so many bytes. -/
structure Entry where
  score : UInt32
  text : String

def Entry.bytes (entry : Entry) : List UInt8 :=
  toLeBytes 4 entry.score.toNat ++ toLeBytes 4 entry.text.utf8ByteSize ++
    entry.text.toByteArray.data.toList

/-- `tokenizer.bin`: the longest length, which nothing reads, and the entries. -/
def tokenizerFile (longest : Nat) (entries : List Entry) : List UInt8 :=
  toLeBytes 4 longest ++ entries.flatMap Entry.bytes

def readU64 (bytes : List UInt8) (i : Nat) : Option Nat :=
  (List.range 8).foldlM (fun value k =>
    bytes[i + k]?.map fun byte => value ||| byte.toNat <<< (8 * k)) 0

variable {F : Type} (ops : Floats F)

/-- Up to so many tokens from a place on. No slice is so long that these sums overflow. -/
def parseTokens (bytes : List UInt8) : Nat → Nat → Option (List (Token F))
  | 0, _ => some []
  | room + 1, place =>
      if bytes.length < place + 8 then some []
      else do
        let score ← readU32 bytes place
        let len ← readU32 bytes (place + 4)
        if bytes.length < place + 8 + len then some []
        else do
          let text ← part bytes (place + 8) (place + 8 + len)
          let rest ← parseTokens bytes room (place + 8 + len)
          some (⟨(String.fromUTF8? ⟨text.toArray⟩).getD "", ops.ofBits score⟩ :: rest)

/-- The tokens `parse_tokenizer` leaves in `VOCAB`; `none` is the panic of a write behind it. -/
def parseTokenizer (bytes : List UInt8) (vocabSize : Nat) : Option (Tokenizer.Model F) := do
  let vocab ← parseTokens ops bytes vocabSize 4
  if fits : vocab.length ≤ Tokenizer.maxVocab then some ⟨vocab, fits⟩ else none

/-- `MODEL` and the entries of `VOCAB` that belong to it. -/
structure Loaded (F : Type) where
  config : Config
  weights : Weights F
  vocab : Tokenizer.Model F

/-- The outer `none` is a fault, the inner one a ramdisk that is ignored. -/
def init (blob : List UInt8) : Option (Option (Loaded F)) :=
  if blob.length < 20 then some none
  else do
    let found ← readU32 blob 0
    if found ≠ magic then some none
    else do
      let modelLen ← readU64 blob 4
      let tokLen ← readU64 blob 12
      let middle ← fit 64 (20 + modelLen)
      let stop ← fit 64 (middle + tokLen)
      if blob.length < stop then some none
      else do
        let modelBytes ← part blob 20 middle
        let tokenizerBytes ← part blob middle stop
        match ← parseModel ops modelBytes with
        | none => some none
        | some (config, weights) => do
            let vocab ← parseTokenizer ops tokenizerBytes config.vocabSize
            some (some ⟨config, weights, vocab⟩)

end Source

section Numbers

@[simp] theorem toLeBytes_length (n value : Nat) : (toLeBytes n value).length = n := by
  induction n generalizing value with
  | zero => rfl
  | succ n ih => rw [toLeBytes, List.length_cons, ih]

theorem toLeBytes_get {n k : Nat} (value : Nat) (inside : k < n) :
    (toLeBytes n value)[k]? = some (UInt8.ofNat (value / 256 ^ k)) := by
  induction n generalizing k value with
  | zero => exact absurd inside (Nat.not_lt_zero k)
  | succ n ih =>
      cases k with
      | zero => simp [toLeBytes]
      | succ k =>
          rw [toLeBytes, List.getElem?_cons_succ, ih _ (Nat.lt_of_succ_lt_succ inside),
            Nat.div_div_eq_div_mul, Nat.pow_succ']

theorem get_behind (front back : List UInt8) {n k : Nat} (value : Nat) (inside : k < n) :
    (front ++ (toLeBytes n value ++ back))[front.length + k]? =
      some (UInt8.ofNat (value / 256 ^ k)) := by
  rw [List.getElem?_append_right (Nat.le_add_right _ _), Nat.add_sub_cancel_left,
    List.getElem?_append_left (by simpa using inside), toLeBytes_get value inside]

theorem readU32_behind {bytes : List UInt8} (front back : List UInt8) (value : Nat)
    (split : bytes = front ++ (toLeBytes 4 value ++ back)) {i : Nat} (here : i = front.length) :
    readU32 bytes i = some (value % 2 ^ 32) := by
  subst split here
  have first := get_behind front back value (show 0 < 4 by decide)
  have second := get_behind front back value (show 1 < 4 by decide)
  have third := get_behind front back value (show 2 < 4 by decide)
  have fourth := get_behind front back value (show 3 < 4 by decide)
  rw [Nat.add_zero] at first
  simp only [readU32, first, second, third, fourth, UInt8.toNat_ofNat', Option.some.injEq]
  omega

private theorem byte_onto (value n : Nat) :
    value % 2 ^ (8 * n) ||| (value / 256 ^ n % 256) <<< (8 * n) = value % 2 ^ (8 * (n + 1)) := by
  have power : 256 ^ n = 2 ^ (8 * n) := by
    rw [Nat.pow_mul]
  have low : value % 2 ^ (8 * n) < 2 ^ (8 * n) := Nat.mod_lt _ (Nat.two_pow_pos _)
  rw [Nat.or_comm, Nat.shiftLeft_eq, Nat.mul_comm, ← Nat.two_pow_add_eq_or_of_lt low, power,
    Nat.mul_add, Nat.pow_add, Nat.mod_mul, Nat.add_comm]

theorem readU64_behind {bytes : List UInt8} (front back : List UInt8) (value : Nat)
    (split : bytes = front ++ (toLeBytes 8 value ++ back)) {i : Nat} (here : i = front.length) :
    readU64 bytes i = some (value % 2 ^ 64) := by
  subst split here
  have upTo : ∀ n ≤ 8, (List.range n).foldlM (fun sum k =>
      (front ++ (toLeBytes 8 value ++ back))[front.length + k]?.map fun byte =>
        sum ||| byte.toNat <<< (8 * k)) 0 = some (value % 2 ^ (8 * n)) := by
    intro n
    induction n with
    | zero =>
        intro _
        simp [Nat.mod_one]
    | succ n ih =>
        intro inside
        rw [List.range_succ, List.foldlM_append, ih (Nat.le_of_succ_le inside),
          Option.bind_eq_bind, Option.bind_some, List.foldlM_cons,
          get_behind front back value inside, Option.map_some, UInt8.toNat_ofNat', byte_onto]
        rfl
  exact upTo 8 (Nat.le_refl 8)

end Numbers

section Files

variable {F : Type} (ops : Floats F)

def Entry.token (entry : Entry) : Token F := ⟨entry.text, ops.ofBits entry.score.toNat⟩

theorem part_behind {bytes : List UInt8} (front middle back : List UInt8)
    (split : bytes = front ++ (middle ++ back)) {start stop : Nat} (starts : start = front.length)
    (stops : stop = front.length + middle.length) : part bytes start stop = some middle := by
  subst split starts stops
  rw [part_eq (Nat.le_add_right _ _) (by simp only [List.length_append]; omega),
    ← List.append_assoc, ← List.length_append, List.take_left, List.drop_left]

private theorem text_back (text : String) :
    (String.fromUTF8? ⟨text.toByteArray.data.toList.toArray⟩).getD "" = text := by
  have whole : (⟨text.toByteArray.data.toList.toArray⟩ : ByteArray) = text.toByteArray := by
    rw [Array.toArray_toList]
  rw [whole, String.fromUTF8?, dif_pos text.isValidUTF8, Option.getD_some]
  exact String.toByteArray_inj.mp rfl

theorem parseTokens_entries (entries : List Entry)
    (small : ∀ entry ∈ entries, entry.text.utf8ByteSize < 2 ^ 32) (front : List UInt8)
    (room : Nat) : parseTokens ops (front ++ entries.flatMap Entry.bytes) room front.length =
      some ((entries.take room).map (Entry.token ops)) := by
  induction entries generalizing front room with
  | nil =>
      cases room with
      | zero => rfl
      | succ room =>
          rw [parseTokens, if_pos (by simp)]
          rfl
  | cons entry rest ih =>
      cases room with
      | zero => rfl
      | succ room =>
          have size : entry.text.toByteArray.data.toList.length = entry.text.utf8ByteSize := by
            rw [Array.length_toList]
            rfl
          have fits := small entry List.mem_cons_self
          have later := fun other member => small other (List.mem_cons_of_mem entry member)
          generalize whole : front ++ (entry :: rest).flatMap Entry.bytes = bytes
          have all : bytes = front ++ (toLeBytes 4 entry.score.toNat ++
              (toLeBytes 4 entry.text.utf8ByteSize ++
                (entry.text.toByteArray.data.toList ++ rest.flatMap Entry.bytes))) := by
            simp only [← whole, List.flatMap_cons, Entry.bytes, List.append_assoc]
          have score : readU32 bytes front.length = some entry.score.toNat := by
            rw [readU32_behind front _ entry.score.toNat all rfl,
              Nat.mod_eq_of_lt entry.score.toNat_lt]
          have len : readU32 bytes (front.length + 4) = some entry.text.utf8ByteSize := by
            rw [readU32_behind (front ++ toLeBytes 4 entry.score.toNat) _ entry.text.utf8ByteSize
              (by rw [all, List.append_assoc]) (by simp), Nat.mod_eq_of_lt fits]
          have text : part bytes (front.length + 8)
              (front.length + 8 + entry.text.utf8ByteSize) =
                some entry.text.toByteArray.data.toList :=
            part_behind (front ++ (toLeBytes 4 entry.score.toNat ++
              toLeBytes 4 entry.text.utf8ByteSize)) _ (rest.flatMap Entry.bytes)
              (by simp only [all, List.append_assoc]) (by simp) (by simp [size])
          have long : bytes.length = front.length + 8 + entry.text.utf8ByteSize +
              (rest.flatMap Entry.bytes).length := by
            rw [all]
            simp only [List.length_append, toLeBytes_length, size]
            omega
          have next := ih later (front ++ entry.bytes) room
          have place : (front ++ entry.bytes).length =
              front.length + 8 + entry.text.utf8ByteSize := by
            simp only [Entry.bytes, List.length_append, toLeBytes_length, size]
            omega
          rw [place, List.append_assoc, ← List.flatMap_cons, whole] at next
          rw [parseTokens, if_neg (by omega), score, Option.bind_eq_bind, Option.bind_some, len,
            Option.bind_some, if_neg (by omega)]
          refine bind_of text (bind_of next ?_)
          rw [text_back]
          rfl

/-- What `init` makes of the two files it has cut out. -/
def install (model tokenizer : List UInt8) : Option (Option (Loaded F)) := do
  match ← parseModel ops model with
  | none => some none
  | some (config, weights) => do
      let vocab ← parseTokenizer ops tokenizer config.vocabSize
      some (some ⟨config, weights, vocab⟩)

def header (modelLen tokLen : Nat) : List UInt8 :=
  toLeBytes 4 magic ++ (toLeBytes 8 modelLen ++ toLeBytes 8 tokLen)

theorem packAssets_eq (model tokenizer : List UInt8) :
    packAssets model tokenizer = header model.length tokenizer.length ++ (model ++ tokenizer) := by
  simp only [packAssets, header, List.append_assoc]

theorem header_length (modelLen tokLen : Nat) : (header modelLen tokLen).length = 20 := by
  simp [header]

theorem header_read (modelLen tokLen : Nat) (body : List UInt8)
    (room : 20 + modelLen + tokLen < 2 ^ 64) :
    init ops (header modelLen tokLen ++ body) =
      if body.length < modelLen + tokLen then some none
      else install ops (body.take modelLen) ((body.take (modelLen + tokLen)).drop modelLen) := by
  generalize whole : header modelLen tokLen ++ body = blob
  have all : blob =
      toLeBytes 4 magic ++ (toLeBytes 8 modelLen ++ (toLeBytes 8 tokLen ++ body)) := by
    simp only [← whole, header, List.append_assoc]
  have found : readU32 blob 0 = some magic := by
    rw [readU32_behind [] _ magic (by rw [all, List.nil_append]) List.length_nil.symm]
    decide
  have first : readU64 blob 4 = some modelLen := by
    rw [readU64_behind (toLeBytes 4 magic) _ modelLen all (toLeBytes_length _ _).symm,
      Nat.mod_eq_of_lt (by omega)]
  have second : readU64 blob 12 = some tokLen := by
    rw [readU64_behind (toLeBytes 4 magic ++ toLeBytes 8 modelLen) body tokLen
      (by rw [all, List.append_assoc]) (by simp), Nat.mod_eq_of_lt (by omega)]
  have length : blob.length = 20 + body.length := by
    rw [← whole, List.length_append, header_length]
  unfold init
  rw [if_neg (by omega)]
  simp only [found, first, second, Option.bind_eq_bind, Option.bind_some, ne_eq, not_true_eq_false,
    if_false, fit_eq (show 20 + modelLen < 2 ^ 64 by omega), fit_eq room, length]
  by_cases short : body.length < modelLen + tokLen
  · rw [if_pos (by omega), if_pos short]
  · have model : part blob 20 (20 + modelLen) = some (body.take modelLen) :=
      part_behind (header modelLen tokLen) _ (body.drop modelLen)
        (by rw [List.take_append_drop, whole]) (header_length _ _).symm
        (by rw [header_length, List.length_take, Nat.min_eq_left (by omega)])
    have tokenizer : part blob (20 + modelLen) (20 + modelLen + tokLen) =
        some ((body.take (modelLen + tokLen)).drop modelLen) := by
      refine part_behind (header modelLen tokLen ++ body.take modelLen) _
        (body.drop (modelLen + tokLen)) ?_ ?_ ?_
      · have same : (body.take (modelLen + tokLen)).take modelLen = body.take modelLen := by
          rw [List.take_take, Nat.min_eq_left (Nat.le_add_right _ _)]
        rw [← whole, List.append_assoc, ← same, ← List.append_assoc (List.take modelLen _),
          List.take_append_drop, List.take_append_drop]
      · rw [List.length_append, header_length, List.length_take, Nat.min_eq_left (by omega)]
      · rw [List.length_append, header_length, List.length_take, List.length_drop,
          List.length_take, Nat.min_eq_left (by omega), Nat.min_eq_left (by omega)]
        omega
    rw [if_neg (by omega), if_neg short, model, Option.bind_some, tokenizer, Option.bind_some]
    rfl

theorem parsed_whole {bytes : List UInt8} {c : Config} {w : Weights F}
    (parsed : parseModel ops bytes = some (some (c, w))) :
    c.tooLarge = false ∧ Whole c ((bytes.length - 28) / 4) ∧
      Cut c (c.dim * c.nKvHeads / c.nHeads) (c.dim / c.nHeads) w := by
  by_cases short : bytes.length < 28
  · rw [parseModel, if_pos short] at parsed
    cases Option.some.inj parsed
  · obtain ⟨c', header⟩ := readHeader_some short
    rcases Bool.eq_false_or_eq_true c'.tooLarge with large | small
    · rw [parseModel, if_neg short, header, Option.bind_eq_bind, Option.bind_some,
        if_pos large] at parsed
      cases Option.some.inj parsed
    · obtain ⟨whole, w', same, cut⟩ := whole_of_parse short header small parsed
      obtain ⟨rfl, rfl⟩ := Prod.mk.inj (Option.some.inj same)
      exact ⟨small, whole, cut⟩

theorem loaded_parsed {blob : List UInt8} {m : Loaded F} (loaded : init ops blob = some (some m)) :
    ∃ bytes, parseModel ops bytes = some (some (m.config, m.weights)) := by
  unfold init at loaded
  split_ifs at loaded with short
  · cases loaded
  obtain ⟨found, -, rest⟩ := Option.bind_eq_some_iff.mp loaded
  split_ifs at rest with other
  · cases rest
  obtain ⟨modelLen, -, rest⟩ := Option.bind_eq_some_iff.mp rest
  obtain ⟨tokLen, -, rest⟩ := Option.bind_eq_some_iff.mp rest
  obtain ⟨middle, -, rest⟩ := Option.bind_eq_some_iff.mp rest
  obtain ⟨stop, -, rest⟩ := Option.bind_eq_some_iff.mp rest
  split_ifs at rest with truncated
  · cases rest
  obtain ⟨bytes, -, rest⟩ := Option.bind_eq_some_iff.mp rest
  obtain ⟨tokens, -, rest⟩ := Option.bind_eq_some_iff.mp rest
  obtain ⟨answer, parsed, rest⟩ := Option.bind_eq_some_iff.mp rest
  cases answer with
  | none => cases rest
  | some both =>
      obtain ⟨vocab, -, same⟩ := Option.bind_eq_some_iff.mp rest
      obtain rfl := Option.some.inj (Option.some.inj same)
      exact ⟨bytes, parsed⟩

theorem packed_read (model tokenizer padding : List UInt8)
    (room : 20 + model.length + tokenizer.length < 2 ^ 64) :
    init ops (packAssets model tokenizer ++ padding) = install ops model tokenizer := by
  have front : (model ++ tokenizer ++ padding).take (model.length + tokenizer.length) =
      model ++ tokenizer := by
    rw [← List.length_append, List.take_left]
  rw [packAssets_eq, List.append_assoc, header_read ops _ _ _ room,
    if_neg (by simp only [List.length_append]; omega), front, List.drop_left, List.append_assoc,
    List.take_left]

theorem install_accepted {model : List UInt8} (longest : Nat) {entries : List Entry}
    (small : ∀ entry ∈ entries, entry.text.utf8ByteSize < 2 ^ 32) {c : Config} {w : Weights F}
    (parsed : parseModel ops model = some (some (c, w))) :
    ∃ vocab, install ops model (tokenizerFile longest entries) = some (some ⟨c, w, vocab⟩) ∧
      vocab.vocab = (entries.take c.vocabSize).map (Entry.token ops) := by
  have tokens : parseTokens ops (tokenizerFile longest entries) c.vocabSize 4 =
      some ((entries.take c.vocabSize).map (Entry.token ops)) := by
    have behind := parseTokens_entries ops entries small (toLeBytes 4 longest) c.vocabSize
    rwa [toLeBytes_length] at behind
  have few : c.vocabSize ≤ ModelFile.maxVocab := by
    have low := of_decide_eq_false (parsed_whole ops parsed).1
    omega
  have fits : ((entries.take c.vocabSize).map (Entry.token ops)).length ≤
      Tokenizer.maxVocab := by
    rw [List.length_map, List.length_take]
    exact Nat.le_trans (Nat.min_le_left _ _) few
  have vocab : parseTokenizer ops (tokenizerFile longest entries) c.vocabSize =
      some ⟨_, fits⟩ := by
    rw [parseTokenizer, tokens, Option.bind_eq_bind, Option.bind_some, dif_pos fits]
  refine ⟨⟨_, fits⟩, ?_, rfl⟩
  rw [install, parsed, Option.bind_eq_bind, Option.bind_some]
  exact bind_of vocab rfl

/-- What the host packs the kernel reads back, whatever the ramdisk is padded with; a blob that
was cut off anywhere is ignored. -/
theorem ramdisk_round_trip (model padding : List UInt8) (longest : Nat) (entries : List Entry)
    (small : ∀ entry ∈ entries, entry.text.utf8ByteSize < 2 ^ 32)
    (room : 20 + model.length + (tokenizerFile longest entries).length < 2 ^ 64) :
    let blob := packAssets model (tokenizerFile longest entries)
    (parseModel ops model = none → init ops (blob ++ padding) = none) ∧
    (parseModel ops model = some none → init ops (blob ++ padding) = some none) ∧
    (∀ c w, parseModel ops model = some (some (c, w)) → ∃ vocab,
      init ops (blob ++ padding) = some (some ⟨c, w, vocab⟩) ∧
      vocab.vocab = (entries.take c.vocabSize).map (Entry.token ops)) ∧
    ∀ n < blob.length, init ops (blob.take n) = some none := by
  intro blob
  set tokenizer := tokenizerFile longest entries with file
  have read := packed_read ops model tokenizer padding room
  refine ⟨fun faults => ?_, fun refused => ?_, fun c w parsed => ?_, fun n inside => ?_⟩
  · rw [read, install, faults]
    rfl
  · rw [read, install, refused]
    rfl
  · rw [read]
    exact install_accepted ops longest small parsed
  · by_cases short : n < 20
    · rw [init, if_pos (by rw [List.length_take]; omega)]
    · obtain ⟨more, rfl⟩ := Nat.exists_eq_add_of_le (Nat.le_of_not_lt short)
      have length : blob.length = 20 + (model.length + tokenizer.length) := by
        rw [show blob = _ from packAssets_eq model tokenizer, List.length_append, header_length,
          List.length_append]
      have cut : blob.take (20 + more) =
          header model.length tokenizer.length ++ (model ++ tokenizer).take more := by
        have behind : (header model.length tokenizer.length ++ (model ++ tokenizer)).take
            ((header model.length tokenizer.length).length + more) = _ :=
          List.take_length_add_append more
        rwa [header_length, ← packAssets_eq] at behind
      rw [cut, header_read ops _ _ _ room, if_pos]
      rw [List.length_take]
      omega

/-- The model without tensors, two entries for its one token, and a byte of padding. -/
theorem ramdisk_round_trip_two :
    let blob := packAssets noKeyHeads (tokenizerFile 2 [⟨7, "a"⟩, ⟨0, "ab"⟩])
    ∃ vocab, init pointFloats (blob ++ [0]) = some (some ⟨⟨0, 0, 0, 1, 0, 1, 1⟩,
      ⟨[], [], [], [], [], [], [], [], [], [], [], [], []⟩, vocab⟩) ∧ vocab.vocab = [⟨"a", ()⟩] :=
  (ramdisk_round_trip pointFloats noKeyHeads [0] 2 [⟨7, "a"⟩, ⟨0, "ab"⟩]
    (by decide +kernel) (by decide +kernel)).2.2.1 _ _ rfl

end Files

end FiveAM.Llm.Ramdisk
