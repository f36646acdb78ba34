/- GID: FiveAM/Llm/Tokenizer
   source: kernel/src/llm.rs
   digest: Byte-pair encoding of a prompt in place, over any vocabulary and any scores. -/

import Mathlib.Algebra.GroupWithZero.Nat
import Mathlib.Data.List.Basic
import Mathlib.Data.List.Range
import Mathlib.Tactic.SplitIfs

set_option autoImplicit false
set_option relaxedAutoImplicit false

namespace FiveAM.Llm.Tokenizer

section Model

def maxVocab : Nat := 32000

structure Token (Score : Type) where
  text : String
  score : Score

/-- What the tokenizer reads of a model: the first `vocab_len` entries of `VOCAB`. -/
structure Model (Score : Type) where
  vocab : List (Token Score)
  vocab_le : vocab.length ≤ maxVocab

variable {Score : Type} [Zero Score]

/-- The entries of `VOCAB` past `vocab_len` are what the static holds from the start. -/
def blank : Token Score := ⟨"", 0⟩

/-- `VOCAB[id]`; `none` is the panic of an index out of bounds. -/
def Model.entry (model : Model Score) (id : Nat) : Option (Token Score) :=
  if id < maxVocab then some (model.vocab.getD id blank) else none

def lookup (model : Model Score) (text : String) : Option Nat :=
  model.vocab.findIdx? fun token => token.text == text

/-- `tokens[place] = id`; `none` is the panic of an index out of bounds. -/
def store (tokens : List Nat) (place id : Nat) : Option (List Nat) :=
  if place < tokens.length then some (tokens.set place id) else none

/-- The token buffer with the number of tokens in it. -/
structure Buffer where
  tokens : List Nat
  count : Nat

def Buffer.push (buffer : Buffer) (id : Nat) : Option Buffer :=
  (store buffer.tokens buffer.count id).map fun tokens => ⟨tokens, buffer.count + 1⟩

/-- Byte fallback: raw bytes occupy ids 3..259. -/
def pushByte (buffer : Buffer) (byte : UInt8) : Option Buffer :=
  if buffer.count < buffer.tokens.length then buffer.push (byte.toNat + 3) else some buffer

def encodeChar (model : Model Score) (buffer : Buffer) (ch : Char) : Option Buffer :=
  match lookup model (String.singleton ch) with
  | some id => buffer.push id
  | none => (String.singleton ch).toByteArray.data.toList.foldlM pushByte buffer

/-- The characters one after another, until the buffer is full. -/
def encodeChars (model : Model Score) : List Char → Buffer → Option Buffer
  | [], buffer => some buffer
  | ch :: rest, buffer =>
      if buffer.tokens.length ≤ buffer.count then some buffer
      else (encodeChar model buffer ch).bind (encodeChars model rest)

/-- Both texts copied into the scratch buffer of 64 bytes and read back as one. -/
def joined (a b : String) : Option String :=
  if 64 < a.utf8ByteSize + b.utf8ByteSize then none
  else String.fromUTF8? (a.toByteArray ++ b.toByteArray)

/-- The token that the tokens at `i` and `i + 1` make together, if there is one. -/
def pair (model : Model Score) (tokens : List Nat) (i : Nat) : Option (Option Nat) := do
  let a ← model.entry (← tokens[i]?)
  let b ← model.entry (← tokens[i + 1]?)
  return (joined a.text b.text).bind (lookup model)

/-- A score with the place of a pair and the token it makes. -/
abbrev Best (Score : Type) := Option (Score × Nat × Nat)

/-- One turn of the search for the best pair; `gt` is the comparison of scores. -/
def consider (model : Model Score) (gt : Score → Score → Bool) (tokens : List Nat)
    (best : Best Score) (i : Nat) : Option (Best Score) := do
  match ← pair model tokens i with
  | none => return best
  | some id =>
      let score := (← model.entry id).score
      match best with
      | none => return some (score, i, id)
      | some (b, _) => return if gt score b then some (score, i, id) else best

def bestPair (model : Model Score) (gt : Score → Score → Bool) (tokens : List Nat)
    (count : Nat) : Option (Best Score) :=
  (List.range (count - 1)).foldlM (consider model gt tokens) none

/-- `tokens[i] = tokens[i + 1]`. -/
def pull (tokens : List Nat) (i : Nat) : Option (List Nat) :=
  tokens[i + 1]?.bind (store tokens i)

/-- The merged token in place of the pair, and everything behind it one place forward. -/
def merge (tokens : List Nat) (count place id : Nat) : Option (List Nat) :=
  (store tokens place id).bind
    (List.foldlM pull · (List.range' (place + 1) (count - 1 - (place + 1))))

def mergeLoop (model : Model Score) (gt : Score → Score → Bool) :
    Nat → List Nat → Option (Nat × List Nat)
  | 0, tokens => do
      match ← bestPair model gt tokens 0 with
      | none => return (0, tokens)
      | some _ => none
  | count + 1, tokens => do
      match ← bestPair model gt tokens (count + 1) with
      | none => return (count + 1, tokens)
      | some (_, place, id) => mergeLoop model gt count (← merge tokens (count + 1) place id)

/-- The number of tokens and the buffer as `encode` leaves it. -/
def encode (model : Model Score) (gt : Score → Score → Bool) (text : String)
    (tokens : List Nat) : Option (Nat × List Nat) := do
  let buffer ← encodeChars model (' ' :: text.toList) ⟨tokens, 0⟩
  mergeLoop model gt buffer.count buffer.tokens

end Model

section Texts

variable {Score : Type}

def Known (model : Model Score) (text : String) : Prop :=
  ∃ token ∈ model.vocab, token.text = text

theorem lookup_none {model : Model Score} {text : String} :
    lookup model text = none ↔ ¬ Known model text := by
  rw [lookup, List.findIdx?_eq_none_iff]
  constructor
  · rintro none ⟨token, member, same⟩
    have differs := none token member
    rw [same, beq_self_eq_true] at differs
    contradiction
  · intro unknown token member
    by_contra same
    exact unknown ⟨token, member, by simpa using same⟩

theorem joined_eq (a b : String) :
    joined a b = if 64 < (a ++ b).utf8ByteSize then none else some (a ++ b) := by
  have valid : (a.toByteArray ++ b.toByteArray).IsValidUTF8 := a.isValidUTF8.append b.isValidUTF8
  rw [joined, String.utf8ByteSize_append, String.fromUTF8?, dif_pos valid]
  refine if_congr Iff.rfl rfl (congrArg some ?_)
  exact String.toByteArray_inj.mp String.toByteArray_append.symm

variable [Zero Score]

def Model.text (model : Model Score) (id : Nat) : String := (model.vocab.getD id blank).text

/-- The texts of some tokens, one after another. -/
def spelled (model : Model Score) (ids : List Nat) : String :=
  ids.foldr (fun id rest => model.text id ++ rest) ""

@[simp] theorem spelled_nil (model : Model Score) : spelled model [] = "" := rfl

@[simp] theorem spelled_cons (model : Model Score) (id : Nat) (ids : List Nat) :
    spelled model (id :: ids) = model.text id ++ spelled model ids := rfl

@[simp] theorem spelled_append (model : Model Score) (ids more : List Nat) :
    spelled model (ids ++ more) = spelled model ids ++ spelled model more := by
  induction ids with
  | nil => simp
  | cons id ids ih => rw [List.cons_append, spelled_cons, ih, spelled_cons, String.append_assoc]

theorem lookup_some {model : Model Score} {text : String} {id : Nat}
    (found : lookup model text = some id) :
    id < model.vocab.length ∧ model.text id = text := by
  obtain ⟨inside, same, _⟩ := List.findIdx?_eq_some_iff_getElem.mp found
  refine ⟨inside, ?_⟩
  rw [Model.text, List.getD_eq_getElem?_getD, List.getElem?_eq_getElem inside, Option.getD_some]
  exact eq_of_beq same

/-- Two neighbours that the vocabulary has a text for, not too long for the scratch
buffer. -/
def Mergeable (model : Model Score) (a b : Nat) : Prop :=
  (model.text a ++ model.text b).utf8ByteSize ≤ 64 ∧ Known model (model.text a ++ model.text b)

end Texts

section Pairs

variable {Score : Type} [Zero Score] {model : Model Score} {gt : Score → Score → Bool}

variable (model) in
theorem entry_eq {id : Nat} (small : id < maxVocab) :
    ∃ token, model.entry id = some token ∧ token.text = model.text id :=
  ⟨_, if_pos small, rfl⟩

variable (model) in
/-- Reading a pair of tokens of the vocabulary: an id is the token of the joined text, and
no id means that the pair is not mergeable. -/
theorem pair_spec {tokens : List Nat} {i a b : Nat} (first : tokens[i]? = some a)
    (second : tokens[i + 1]? = some b) (small : a < maxVocab) (small' : b < maxVocab) :
    ∃ found, pair model tokens i = some found ∧ (found = none ↔ ¬ Mergeable model a b) ∧
      ∀ id, found = some id → id < maxVocab ∧ model.text id = model.text a ++ model.text b := by
  obtain ⟨_, entry, same⟩ := entry_eq model small
  obtain ⟨_, entry', same'⟩ := entry_eq model small'
  refine ⟨(joined (model.text a) (model.text b)).bind (lookup model), ?_, ?_, ?_⟩
  · simp [pair, first, second, entry, entry', same, same']
  · rw [joined_eq, Mergeable]
    split_ifs with long
    · exact iff_of_true rfl fun short => absurd short.1 (Nat.not_le.mpr long)
    · rw [Option.bind_some, lookup_none]
      exact not_congr ⟨fun known => ⟨Nat.not_lt.mp long, known⟩, fun both => both.2⟩
  · intro id found
    rw [joined_eq] at found
    split_ifs at found with long
    · simp at found
    · obtain ⟨inside, spells⟩ := lookup_some found
      exact ⟨Nat.lt_of_lt_of_le inside model.vocab_le, spells⟩

def NoPair (model : Model Score) (tokens : List Nat) (turns : Nat) : Prop :=
  ∀ i < turns, ∀ a b, tokens[i]? = some a → tokens[i + 1]? = some b → ¬ Mergeable model a b

/-- What the search has found after some turns. -/
structure Found (model : Model Score) (tokens : List Nat) (turns : Nat) (best : Best Score) :
    Prop where
  missed : best = none → NoPair model tokens turns
  chosen : ∀ score place id, best = some (score, place, id) → place < turns ∧ id < maxVocab ∧
    ∃ a b, tokens[place]? = some a ∧ tokens[place + 1]? = some b ∧
      model.text id = model.text a ++ model.text b

/-- The tokens in use lie in the buffer and name entries of `VOCAB`. -/
structure InUse (tokens : List Nat) (count : Nat) : Prop where
  fits : count ≤ tokens.length
  entries : ∀ id ∈ tokens.take count, id < maxVocab

omit [Zero Score] in
theorem InUse.entry {tokens : List Nat} {count i id : Nat} (inUse : InUse tokens count)
    (inside : i < count) (here : tokens[i]? = some id) : id < maxVocab := by
  refine inUse.entries id (List.mem_of_getElem? (i := i) ?_)
  rw [List.getElem?_take, if_pos inside, here]

theorem consider_spec {tokens : List Nat} {count i : Nat} {best : Best Score}
    (inUse : InUse tokens count) (inside : i + 1 < count) (found : Found model tokens i best) :
    ∃ next, consider model gt tokens best i = some next ∧ Found model tokens (i + 1) next := by
  have bound := inUse.fits
  have first := List.getElem?_eq_getElem (show i < tokens.length by omega)
  have second := List.getElem?_eq_getElem (show i + 1 < tokens.length by omega)
  obtain ⟨made, read, missing, makes⟩ := pair_spec model first second
    (inUse.entry (by omega) first) (inUse.entry inside second)
  cases made with
  | none =>
      refine ⟨best, by simp [consider, read], ⟨fun empty j less a b here next => ?_, ?_⟩⟩
      · rcases Nat.lt_succ_iff_lt_or_eq.mp less with before | rfl
        · exact found.missed empty j before a b here next
        · obtain rfl := Option.some.inj (first.symm.trans here)
          obtain rfl := Option.some.inj (second.symm.trans next)
          exact missing.mp rfl
      · intro score place id chosen
        obtain ⟨less, rest⟩ := found.chosen score place id chosen
        exact ⟨Nat.lt_succ_of_lt less, rest⟩
  | some id =>
      obtain ⟨small, spells⟩ := makes id rfl
      obtain ⟨token, entry, _⟩ := entry_eq model small
      have taken : Found model tokens (i + 1) (some (token.score, i, id)) := by
        refine ⟨nofun, fun score place chosen same => ?_⟩
        obtain ⟨rfl, rfl, rfl⟩ := by simpa using same
        exact ⟨Nat.lt_succ_self _, small, _, _, first, second, spells⟩
      cases best with
      | none => exact ⟨_, by simp [consider, read, entry], taken⟩
      | some b =>
          have kept : Found model tokens (i + 1) (some b) := by
            refine ⟨nofun, fun score place chosen same => ?_⟩
            obtain ⟨less, rest⟩ := found.chosen score place chosen same
            exact ⟨Nat.lt_succ_of_lt less, rest⟩
          refine ⟨if gt token.score b.1 then some (token.score, i, id) else some b,
            by simp [consider, read, entry], ?_⟩
          split_ifs
          · exact taken
          · exact kept

variable (gt) in
theorem bestPair_spec {tokens : List Nat} {count : Nat} (inUse : InUse tokens count) :
    ∃ best, bestPair model gt tokens count = some best ∧
      Found model tokens (count - 1) best := by
  have upTo : ∀ turns ≤ count - 1, ∃ best,
      (List.range turns).foldlM (consider model gt tokens) none = some best ∧
        Found model tokens turns best := by
    intro turns
    induction turns with
    | zero => exact fun _ => ⟨none, rfl, fun _ i less => absurd less (Nat.not_lt_zero i), nofun⟩
    | succ turns ih =>
        intro less
        obtain ⟨best, run, found⟩ := ih (by omega)
        obtain ⟨next, step, found'⟩ := consider_spec inUse
          (show turns + 1 < count by omega) found
        refine ⟨next, ?_, found'⟩
        rw [List.range_succ, List.foldlM_append, run]
        simpa using step
  exact upTo (count - 1) (Nat.le_refl _)

end Pairs

section Merging

theorem pull_spec {tokens : List Nat} {i : Nat} (inside : i + 1 < tokens.length) :
    pull tokens i = some (tokens.set i tokens[i + 1]) := by
  rw [pull, List.getElem?_eq_getElem inside, Option.bind_some, store, if_pos (by omega)]

theorem pull_run (tokens : List Nat) (place turns : Nat) (inside : place + turns < tokens.length) :
    ∃ out, (List.range' place turns).foldlM pull tokens = some out ∧
      out.length = tokens.length ∧ ∀ j, out[j]? =
        if place ≤ j ∧ j < place + turns then tokens[j + 1]? else tokens[j]? := by
  induction turns generalizing place tokens with
  | zero =>
      refine ⟨tokens, rfl, rfl, fun j => ?_⟩
      rw [if_neg (by omega)]
  | succ turns ih =>
      have room : place + 1 < tokens.length := by omega
      obtain ⟨out, run, length, moved⟩ := ih (tokens.set place tokens[place + 1])
        (place + 1) (by simpa using by omega)
      refine ⟨out, ?_, by simpa using length, fun j => ?_⟩
      · rw [List.range'_succ, List.foldlM_cons, pull_spec room]
        exact run
      · rw [moved j]
        by_cases here : j = place
        · subst here
          rw [if_neg (by omega), if_pos (by omega), List.getElem?_set_self (by omega),
            List.getElem?_eq_getElem room]
        · have same : (place + 1 ≤ j ∧ j < place + 1 + turns) ↔
              (place ≤ j ∧ j < place + (turns + 1)) := by omega
          simp only [same]
          split_ifs with between
          · exact List.getElem?_set_ne (by omega)
          · exact List.getElem?_set_ne (by omega)

/-- A merge keeps the buffer's length, puts the new token in place of the pair and moves
the rest of the tokens one place forward. -/
theorem merge_spec {tokens : List Nat} {count place id : Nat} (fits : count ≤ tokens.length)
    (inside : place + 1 < count) :
    ∃ out, merge tokens count place id = some out ∧ out.length = tokens.length ∧
      out.take (count - 1) = tokens.take place ++ id :: (tokens.take count).drop (place + 2) := by
  obtain ⟨out, run, length, moved⟩ := pull_run (tokens.set place id)
    (place + 1) (count - 1 - (place + 1)) (by simpa using by omega)
  refine ⟨out, ?_, by simpa using length, ?_⟩
  · rw [merge, store, if_pos (by omega)]
    exact run
  · apply List.ext_getElem?
    intro j
    have front : (tokens.take place).length = place := by
      rw [List.length_take]
      omega
    rw [List.getElem?_take, moved]
    rcases Nat.lt_trichotomy j place with before | rfl | behind
    · rw [if_pos (by omega), if_neg (by omega), List.getElem?_set_ne (by omega),
        List.getElem?_append_left (by omega), List.getElem?_take, if_pos before]
    · rw [if_pos (by omega), if_neg (by omega), List.getElem?_set_self (by omega),
        List.getElem?_append_right (by omega), front, Nat.sub_self, List.getElem?_cons_zero]
    · obtain ⟨k, rfl⟩ := Nat.exists_eq_add_of_lt behind
      rw [List.getElem?_append_right (by omega), front,
        show place + k + 1 - place = k + 1 by omega, List.getElem?_cons_succ,
        List.getElem?_drop, List.getElem?_take, List.getElem?_set_ne (by omega)]
      have shifted : place + k + 1 + 1 = place + 2 + k := by omega
      by_cases last : place + k + 1 < count - 1
      · rw [if_pos last, if_pos (by omega), if_pos (by omega), shifted]
      · rw [if_neg last, if_neg (by omega)]

variable {Score : Type} [Zero Score] {model : Model Score} {gt : Score → Score → Bool}

private theorem take_pair {tokens : List Nat} {count place a b : Nat}
    (inside : place + 1 < count) (first : tokens[place]? = some a)
    (second : tokens[place + 1]? = some b) :
    tokens.take count = tokens.take place ++ a :: b :: (tokens.take count).drop (place + 2) := by
  have here : (tokens.take count)[place]? = some a := by
    rw [List.getElem?_take, if_pos (by omega), first]
  have next : (tokens.take count)[place + 1]? = some b := by
    rw [List.getElem?_take, if_pos inside, second]
  obtain ⟨bound, rfl⟩ := List.getElem?_eq_some_iff.mp here
  obtain ⟨bound', rfl⟩ := List.getElem?_eq_some_iff.mp next
  rw [← List.drop_eq_getElem_cons bound', ← List.drop_eq_getElem_cons bound]
  conv_lhs => rw [← List.take_append_drop place (tokens.take count)]
  rw [List.take_take, Nat.min_eq_left (by omega)]

theorem merge_spells {tokens out : List Nat} {count place id a b : Nat}
    (fits : count ≤ tokens.length) (inside : place + 1 < count)
    (first : tokens[place]? = some a) (second : tokens[place + 1]? = some b)
    (spells : model.text id = model.text a ++ model.text b)
    (merged : merge tokens count place id = some out) :
    spelled model (out.take (count - 1)) = spelled model (tokens.take count) := by
  obtain ⟨result, run, _, taken⟩ := merge_spec fits inside
  obtain rfl := Option.some.inj (run.symm.trans merged)
  rw [taken, take_pair inside first second]
  simp only [spelled_append, spelled_cons, spells, String.append_assoc]
  rw [← take_pair inside first second]

private theorem merge_inUse {tokens out : List Nat} {count place id : Nat}
    (inUse : InUse tokens count) (inside : place + 1 < count) (small : id < maxVocab)
    (merged : merge tokens count place id = some out) : InUse out (count - 1) := by
  obtain ⟨result, run, length, taken⟩ := merge_spec inUse.fits inside
  obtain rfl := Option.some.inj (run.symm.trans merged)
  have fits := inUse.fits
  refine ⟨by omega, fun other member => ?_⟩
  rw [taken, List.mem_append, List.mem_cons] at member
  rcases member with before | rfl | behind
  · refine inUse.entries other (List.mem_of_mem_take (i := place) ?_)
    rwa [List.take_take, Nat.min_eq_left (by omega)]
  · exact small
  · exact inUse.entries other (List.mem_of_mem_drop behind)

variable (model gt) in
theorem mergeLoop_spec {tokens : List Nat} {count : Nat} (inUse : InUse tokens count) :
    ∃ left out, mergeLoop model gt count tokens = some (left, out) ∧
      out.length = tokens.length ∧ left ≤ count ∧ NoPair model out (left - 1) ∧
      spelled model (out.take left) = spelled model (tokens.take count) := by
  induction count generalizing tokens with
  | zero =>
      refine ⟨0, tokens, ?_, rfl, Nat.le_refl _, fun i less => absurd less (Nat.not_lt_zero i), rfl⟩
      simp [mergeLoop, bestPair]
  | succ count ih =>
      obtain ⟨best, search, found⟩ := bestPair_spec gt inUse
      cases best with
      | none =>
          exact ⟨count + 1, tokens, by simp [mergeLoop, search], rfl, Nat.le_refl _,
            found.missed rfl, rfl⟩
      | some best =>
          obtain ⟨score, place, id⟩ := best
          obtain ⟨less, small, a, b, first, second, spells⟩ := found.chosen score place id rfl
          have inside : place + 1 < count + 1 := by omega
          obtain ⟨next, merged, length, _⟩ := merge_spec inUse.fits inside
          obtain ⟨left, out, run, length', fewer, done, same⟩ :=
            ih (merge_inUse inUse inside small merged)
          refine ⟨left, out, ?_, length'.trans length, Nat.le_succ_of_le fewer, done, ?_⟩
          · simpa [mergeLoop, search, merged] using run
          · exact same.trans (merge_spells inUse.fits inside first second spells merged)

end Merging

section Characters

variable {Score : Type} [Zero Score] {model : Model Score} {gt : Score → Score → Bool}

def Buffer.used (buffer : Buffer) : List Nat := buffer.tokens.take buffer.count

/-- One buffer follows another: of the same length, with some more tokens in use. -/
structure Extends (buffer next : Buffer) (more : List Nat) : Prop where
  length : next.tokens.length = buffer.tokens.length
  used : next.used = buffer.used ++ more
  inUse : InUse next.tokens next.count
  count : next.count = buffer.count + more.length

private theorem extends_refl {buffer : Buffer} (inUse : InUse buffer.tokens buffer.count) :
    Extends buffer buffer [] :=
  ⟨rfl, (List.append_nil _).symm, inUse, rfl⟩

private theorem Extends.trans {first second third : Buffer} {more rest : List Nat}
    (one : Extends first second more) (two : Extends second third rest) :
    Extends first third (more ++ rest) where
  length := two.length.trans one.length
  used := by rw [two.used, one.used, List.append_assoc]
  inUse := two.inUse
  count := by rw [two.count, one.count, List.length_append, Nat.add_assoc]

private theorem push_spec {buffer : Buffer} {id : Nat} (inUse : InUse buffer.tokens buffer.count)
    (room : buffer.count < buffer.tokens.length) (small : id < maxVocab) :
    ∃ next, buffer.push id = some next ∧ Extends buffer next [id] := by
  have taken : (buffer.tokens.set buffer.count id).take (buffer.count + 1) =
      buffer.tokens.take buffer.count ++ [id] := by
    rw [List.take_add_one, List.getElem?_set_self room, List.take_set_of_le (Nat.le_refl _)]
    rfl
  refine ⟨⟨buffer.tokens.set buffer.count id, buffer.count + 1⟩, ?_, ?_⟩
  · simp [Buffer.push, store, room]
  · refine ⟨List.length_set, taken, ⟨by simpa using Nat.succ_le_of_lt room,
      fun other member => ?_⟩, rfl⟩
    rw [taken] at member
    rcases List.mem_append.mp member with before | last
    · exact inUse.entries other before
    · obtain rfl := List.mem_singleton.mp last
      exact small

private theorem pushByte_spec {buffer : Buffer} (byte : UInt8)
    (inUse : InUse buffer.tokens buffer.count) :
    ∃ next more, pushByte buffer byte = some next ∧ Extends buffer next more := by
  by_cases room : buffer.count < buffer.tokens.length
  · have small : byte.toNat + 3 < maxVocab :=
      Nat.lt_trans (Nat.add_lt_add_right byte.toNat_lt 3) (by decide)
    obtain ⟨next, pushed, extended⟩ := push_spec inUse room small
    exact ⟨next, _, by simp [pushByte, room, pushed], extended⟩
  · exact ⟨buffer, [], by simp [pushByte, room], extends_refl inUse⟩

private theorem pushBytes_spec (bytes : List UInt8) {buffer : Buffer}
    (inUse : InUse buffer.tokens buffer.count) :
    ∃ next more, bytes.foldlM pushByte buffer = some next ∧ Extends buffer next more := by
  induction bytes generalizing buffer with
  | nil => exact ⟨buffer, [], rfl, extends_refl inUse⟩
  | cons byte bytes ih =>
      obtain ⟨next, more, pushed, extended⟩ := pushByte_spec byte inUse
      obtain ⟨last, rest, run, extended'⟩ := ih extended.inUse
      exact ⟨last, _, by simpa [pushed] using run, extended.trans extended'⟩

variable (model) in
theorem encodeChar_spec {buffer : Buffer} (ch : Char) (inUse : InUse buffer.tokens buffer.count)
    (room : buffer.count < buffer.tokens.length) :
    ∃ next more, encodeChar model buffer ch = some next ∧ Extends buffer next more ∧
      (Known model (String.singleton ch) →
        more.length = 1 ∧ spelled model more = String.singleton ch) := by
  cases found : lookup model (String.singleton ch) with
  | some id =>
      obtain ⟨inside, spells⟩ := lookup_some found
      obtain ⟨next, pushed, extended⟩ :=
        push_spec inUse room (Nat.lt_of_lt_of_le inside model.vocab_le)
      exact ⟨next, [id], by simp [encodeChar, found, pushed], extended,
        fun _ => ⟨rfl, by simp [spells]⟩⟩
  | none =>
      obtain ⟨next, more, run, extended⟩ := pushBytes_spec
        (String.singleton ch).toByteArray.data.toList inUse
      exact ⟨next, more, by simp only [encodeChar, found, run], extended,
        fun known => absurd known (lookup_none.mp found)⟩

variable (model) in
theorem encodeChars_spec (chars : List Char) (buffer : Buffer)
    (inUse : InUse buffer.tokens buffer.count) :
    ∃ next more, encodeChars model chars buffer = some next ∧ Extends buffer next more ∧
      ((∀ ch ∈ chars, Known model (String.singleton ch)) →
        buffer.count + chars.length ≤ buffer.tokens.length →
        spelled model more = String.ofList chars) := by
  induction chars generalizing buffer with
  | nil => exact ⟨buffer, [], rfl, extends_refl inUse, fun _ _ => rfl⟩
  | cons ch chars ih =>
      by_cases full : buffer.tokens.length ≤ buffer.count
      · refine ⟨buffer, [], by simp [encodeChars, full], extends_refl inUse, fun _ fits => ?_⟩
        rw [List.length_cons] at fits
        omega
      · obtain ⟨next, more, step, extended, spells⟩ :=
          encodeChar_spec model ch inUse (by omega)
        obtain ⟨last, rest, run, extended', spells'⟩ := ih _ extended.inUse
        refine ⟨last, more ++ rest, by simp [encodeChars, full, step, run],
          extended.trans extended', fun known fits => ?_⟩
        obtain ⟨one, spell⟩ := spells (known ch List.mem_cons_self)
        rw [List.length_cons] at fits
        have room : next.count + chars.length ≤ next.tokens.length := by
          rw [extended.count, extended.length, one]
          omega
        rw [spelled_append, spell, String.ofList_cons,
          spells' (fun other member => known other (List.mem_cons_of_mem _ member)) room]

end Characters

section Encoding

variable {Score : Type} [Zero Score]

/-- For every vocabulary, comparison of scores, prompt and token buffer: `encode` ends
inside the buffer with no pair left to merge; a merge spells what was there before; and a
prompt of known characters that fits is spelled by its tokens after a space. -/
theorem encode_spells (model : Model Score) (gt : Score → Score → Bool) (prompt : String)
    (tokens : List Nat) :
    (∃ count out, encode model gt prompt tokens = some (count, out) ∧
      out.length = tokens.length ∧ count ≤ tokens.length ∧
      (∀ i a b, i + 1 < count → out[i]? = some a → out[i + 1]? = some b →
        ¬ Mergeable model a b) ∧
      ((∀ ch ∈ ' ' :: prompt.toList, Known model (String.singleton ch)) →
        1 + prompt.length ≤ tokens.length →
        spelled model (out.take count) = " " ++ prompt)) ∧
    ∀ used count score place id out, InUse used count →
      bestPair model gt used count = some (some (score, place, id)) →
      merge used count place id = some out →
      spelled model (out.take (count - 1)) = spelled model (used.take count) := by
  constructor
  · obtain ⟨buffer, more, first, extended, spells⟩ := encodeChars_spec model
      (' ' :: prompt.toList) ⟨tokens, 0⟩ ⟨Nat.zero_le _, by simp⟩
    obtain ⟨count, out, run, length, fewer, done, same⟩ :=
      mergeLoop_spec model gt extended.inUse
    have fits := extended.inUse.fits
    have sameLength := extended.length
    refine ⟨count, out, by simp [encode, first, run], length.trans extended.length, ?_, ?_, ?_⟩
    · exact Nat.le_trans fewer (sameLength ▸ fits)
    · exact fun i a b inside => done i (by omega) a b
    · intro known room
      have used : buffer.tokens.take buffer.count = more := extended.used
      rw [same, used, spells known (by simpa [Nat.add_comm, String.length_toList] using room),
        String.ofList_cons, String.ofList_toList]
      rfl
  · intro used count score place id out inUse search merged
    obtain ⟨best, search', found⟩ := bestPair_spec gt inUse
    obtain rfl := Option.some.inj (search'.symm.trans search)
    obtain ⟨less, _, a, b, here, next, spells⟩ := found.chosen score place id rfl
    exact merge_spells inUse.fits (by omega) here next spells merged

/-- Four entries with a pair that merges, scored by natural numbers. -/
def smallModel : Model Nat :=
  ⟨[⟨" ", 0⟩, ⟨"a", 0⟩, ⟨"b", 0⟩, ⟨"ab", 5⟩], by decide⟩

/-- The prompt `ab` in a buffer of four tokens. -/
theorem encode_spells_ab :
    ∃ count out, encode smallModel (fun a b => decide (b < a)) "ab" [0, 0, 0, 0] =
      some (count, out) ∧ spelled smallModel (out.take count) = " " ++ "ab" := by
  obtain ⟨count, out, run, _, _, _, spells⟩ :=
    (encode_spells smallModel (fun a b => decide (b < a)) "ab" [0, 0, 0, 0]).1
  have known : ∀ ch ∈ ' ' :: "ab".toList,
      ∃ token ∈ smallModel.vocab, token.text = String.singleton ch := by
    intro ch inside
    obtain rfl | rfl | rfl : ch = ' ' ∨ ch = 'a' ∨ ch = 'b' := by simpa using inside
    · exact ⟨⟨" ", 0⟩, by simp [smallModel], rfl⟩
    · exact ⟨⟨"a", 0⟩, by simp [smallModel], rfl⟩
    · exact ⟨⟨"b", 0⟩, by simp [smallModel], rfl⟩
  exact ⟨count, out, run, spells known (by decide)⟩

end Encoding

end FiveAM.Llm.Tokenizer
