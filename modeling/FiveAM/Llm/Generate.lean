/- GID: FiveAM/Llm/Generate
   source: kernel/src/llm.rs
   digest: Greedy decoding: the prompt is replayed and shown, then the model goes on by itself. -/

import FiveAM.Llm.Ramdisk

set_option autoImplicit false
set_option relaxedAutoImplicit false

namespace FiveAM.Llm.Generate

open FiveAM.Lib.Loops FiveAM.Llm.ModelFile FiveAM.Llm.Forward FiveAM.Llm.ModelSafety
open FiveAM.Llm.Ramdisk
open FiveAM.Llm.Tokenizer (Known InUse spelled lookup mergeLoop encodeChar encodeChars encode)

section Source

/-- A digit of `from_str_radix(_, 16)`. -/
def hexDigit (ch : Char) : Option Nat :=
  if '0' ≤ ch ∧ ch ≤ '9' then some (ch.toNat - '0'.toNat)
  else if 'a' ≤ ch ∧ ch ≤ 'f' then some (ch.toNat - 'a'.toNat + 10)
  else if 'A' ≤ ch ∧ ch ≤ 'F' then some (ch.toNat - 'A'.toNat + 10)
  else none

/-- The digits of a byte, one after the other; `none` is the error of a number too large. -/
def hexDigits (digits : List Char) : Option Nat :=
  digits.foldlM (fun value ch => do
    let digit ← hexDigit ch
    let next := value * 16 + digit
    if next < 256 then some next else none) 0

/-- `u8::from_str_radix(_, 16)`. -/
def byteFromHex : List Char → Option Nat
  | [] => none
  | ['+'] => none
  | '+' :: digits => hexDigits digits
  | digits => hexDigits digits

/-- The byte of a text `<0xXX>`. -/
def fallbackByte : List Char → Option Nat
  | '<' :: '0' :: 'x' :: rest =>
      if rest.getLast? = some '>' then byteFromHex rest.dropLast else none
  | _ => none

variable {F : Type} (ops : Floats F)

/-- What printing one token's text puts on the screen. -/
def emit (vocab : Tokenizer.Model F) (token previous : Nat) : List Char :=
  match vocab.vocab[token]? with
  | none => []
  | some entry =>
      if token = 1 then []
      else
        let text := if previous = 1 then entry.text.toList.dropWhile (· == ' ')
          else entry.text.toList
        match fallbackByte text with
        | some byte => [Char.ofNat byte]
        | none => text

/-- `none` is the panic of an index out of bounds. -/
def argmax (values : List F) : Option Nat :=
  (List.range values.length).foldlM (fun best i => do
    let value ← values[i]?
    let most ← values[best]?
    some (if ops.gt value most then i else best)) 0

/-- What a call computes before its first pass. -/
structure Request where
  tokens : List Nat
  promptLen : Nat
  limit : Nat

/-- What a call carries from one pass to the next, with what it has printed. -/
structure Progress where
  token : Nat
  previous : Nat
  generated : Nat
  shown : List Char

/-- The prompt behind a beginning-of-sequence token, and the number of passes. -/
def prepare (m : Loaded F) (prompt : String) (steps : Nat) : Option Request := do
  let tokens := (List.replicate 128 0).set 0 1
  let (count, rest) ← @encode F ⟨ops.zero⟩ m.vocab ops.gt prompt (tokens.drop 1)
  some ⟨tokens.take 1 ++ rest, count + 1, min steps m.config.seqLen⟩

/-- Before the first pass only the line before the text is printed. -/
def Progress.start : Progress := ⟨1, 0, 0, ['\n']⟩

/-- While the prompt is replayed the prediction is ignored. -/
def nextToken (r : Request) (pos : Nat) (logits : List F) : Option Nat :=
  if pos + 1 < r.promptLen then r.tokens[pos + 1]? else argmax ops logits

def turn (m : Loaded F) (r : Request) (pos : Nat) (s : RunState F) (p : Progress) :
    Option (RunState F × Progress) := do
  let s ← forward ops m.config m.weights s p.token pos
  let next ← nextToken ops r pos s.logits
  some (s, ⟨next, p.token, p.generated + 1, p.shown ++ emit m.vocab p.token p.previous⟩)

/-- So many passes from a position on, or fewer if one ends the sequence. -/
def turns (m : Loaded F) (r : Request) : Nat → Nat → RunState F → Progress →
    Option (RunState F × Progress)
  | 0, _, s, p => some (s, p)
  | left + 1, pos, s, p => do
      let (s, p) ← turn ops m r pos s p
      if p.token = 2 then some (s, p) else turns m r left (pos + 1) s p

/-- The token the loop has ended with is printed behind it. -/
def Progress.finish (vocab : Tokenizer.Model F) (p : Progress) : Progress :=
  { p with shown := p.shown ++ emit vocab p.token p.previous }

def generate (m : Loaded F) (s : RunState F) (prompt : String) (steps : Nat) :
    Option (RunState F × Progress) := do
  let r ← prepare ops m prompt steps
  let (s, p) ← turns ops m r r.limit 0 s Progress.start
  some (s, p.finish m.vocab)

end Source

section Tokens

variable {Score : Type} [Zero Score] {model : Tokenizer.Model Score} {gt : Score → Score → Bool}

/-- What holds of two tokens holds of the one that spells both. -/
def Joining (model : Tokenizer.Model Score) (Q : Nat → Prop) : Prop :=
  ∀ a b id, Q a → Q b → id < Tokenizer.maxVocab → model.text id = model.text a ++ model.text b →
    Q id

theorem mergeLoop_all {Q : Nat → Prop} (small : ∀ id, Q id → id < Tokenizer.maxVocab)
    (joining : Joining model Q) {tokens out : List Nat} {count left : Nat}
    (fits : count ≤ tokens.length) (all : ∀ id ∈ tokens.take count, Q id)
    (run : mergeLoop model gt count tokens = some (left, out)) : ∀ id ∈ out.take left, Q id := by
  induction count generalizing tokens with
  | zero =>
      obtain ⟨rfl, rfl⟩ : 0 = left ∧ tokens = out := by
        simpa [mergeLoop, Tokenizer.bestPair] using run
      exact all
  | succ count ih =>
      have inUse : InUse tokens (count + 1) := ⟨fits, fun id member => small id (all id member)⟩
      obtain ⟨best, search, found⟩ := Tokenizer.bestPair_spec gt inUse
      cases best with
      | none =>
          rw [mergeLoop, search] at run
          obtain ⟨rfl, rfl⟩ : count + 1 = left ∧ tokens = out := by simpa using run
          exact all
      | some best =>
          obtain ⟨score, place, id⟩ := best
          obtain ⟨less, inside, a, b, first, second, spells⟩ := found.chosen score place id rfl
          obtain ⟨next, merged, length, taken⟩ :=
            @Tokenizer.merge_spec tokens (count + 1) place id fits (by omega)
          have here : ∀ {i x}, i < count + 1 → tokens[i]? = some x → Q x := by
            intro i x below at_i
            refine all x (List.mem_of_getElem? (i := i) ?_)
            rw [List.getElem?_take, if_pos below, at_i]
          have later : mergeLoop model gt count next = some (left, out) := by
            rw [mergeLoop, search] at run
            simpa [merged] using run
          refine ih (by omega) (fun other member => ?_) later
          rw [show count = count + 1 - 1 from rfl, taken, List.mem_append, List.mem_cons] at member
          rcases member with before | rfl | behind
          · refine all other (List.mem_of_mem_take (i := place) ?_)
            rwa [List.take_take, Nat.min_eq_left (by omega)]
          · exact joining a b other (here (by omega) first) (here (by omega) second) inside spells
          · exact all other (List.mem_of_mem_drop behind)

theorem encodeChars_all {Q : Nat → Prop} {chars : List Char}
    (each : ∀ ch ∈ chars, ∀ id, id < Tokenizer.maxVocab → model.text id = String.singleton ch →
      Q id) (known : ∀ ch ∈ chars, Known model (String.singleton ch))
    {buffer next : Tokenizer.Buffer} (inUse : InUse buffer.tokens buffer.count)
    (all : ∀ id ∈ buffer.used, Q id)
    (run : encodeChars model chars buffer = some next) : ∀ id ∈ next.used, Q id := by
  induction chars generalizing buffer with
  | nil =>
      obtain rfl := Option.some.inj run
      exact all
  | cons ch chars ih =>
      rw [encodeChars] at run
      split_ifs at run with full
      · obtain rfl := Option.some.inj run
        exact all
      · obtain ⟨after, more, step, extended, spells⟩ :=
          Tokenizer.encodeChar_spec model ch inUse (Nat.lt_of_not_le full)
        rw [step] at run
        refine ih (fun other member => each other (List.mem_cons_of_mem _ member))
          (fun other member => known other (List.mem_cons_of_mem _ member)) extended.inUse ?_ run
        intro id member
        rw [extended.used] at member
        rcases List.mem_append.mp member with before | last
        · exact all id before
        · obtain ⟨one, spelt⟩ := spells (known ch List.mem_cons_self)
          obtain ⟨only, rfl⟩ := List.length_eq_one_iff.mp one
          obtain rfl := List.mem_singleton.mp last
          refine each ch List.mem_cons_self _ ?_ (by simpa using spelt)
          refine extended.inUse.entries id ?_
          rw [← Tokenizer.Buffer.used, extended.used]
          exact List.mem_append_right _ List.mem_cons_self

theorem spelled_long {ids : List Nat} (texts : ∀ id ∈ ids, model.text id ≠ "") :
    ids.length ≤ (spelled model ids).length := by
  induction ids with
  | nil => exact Nat.zero_le _
  | cons id ids ih =>
      have one : 0 < (model.text id).length := by
        rw [Nat.pos_iff_ne_zero, ne_eq, String.length_eq_zero_iff]
        exact texts id List.mem_cons_self
      have rest := ih fun other member => texts other (List.mem_cons_of_mem _ member)
      rw [Tokenizer.spelled_cons, String.length_append, List.length_cons]
      omega

variable (model gt) in
/-- What encoding leaves in the buffer: entries of `VOCAB`, and for a prompt of known characters
that fits, tokens of the vocabulary with texts that spell it. -/
theorem encode_all (prompt : String) (tokens : List Nat) :
    ∃ count out, encode model gt prompt tokens = some (count, out) ∧ out.length = tokens.length ∧
      count ≤ tokens.length ∧ (∀ id ∈ out.take count, id < Tokenizer.maxVocab) ∧
      ((∀ ch ∈ ' ' :: prompt.toList, Known model (String.singleton ch)) →
        1 + prompt.length ≤ tokens.length → count ≤ 1 + prompt.length ∧
        spelled model (out.take count) = " " ++ prompt ∧
        ∀ id ∈ out.take count, model.text id ≠ "") := by
  have empty : InUse tokens 0 := ⟨Nat.zero_le _, by simp⟩
  obtain ⟨buffer, more, first, extended, spells⟩ :=
    Tokenizer.encodeChars_spec model (' ' :: prompt.toList) ⟨tokens, 0⟩ empty
  obtain ⟨count, out, run, length, fewer, -, same⟩ :=
    Tokenizer.mergeLoop_spec model gt extended.inUse
  have fits := extended.inUse.fits
  have whole := extended.length
  refine ⟨count, out, by simp [encode, first, run], length.trans whole,
    Nat.le_trans fewer (whole ▸ fits), ?_, fun known room => ?_⟩
  · exact mergeLoop_all (fun _ small => small) (fun _ _ id _ _ small _ => small) fits
      extended.inUse.entries run
  · have used : buffer.tokens.take buffer.count = more := extended.used
    have spelt : spelled model more = " " ++ prompt := by
      rw [spells known (by simpa [Nat.add_comm, String.length_toList] using room),
        String.ofList_cons, String.ofList_toList]
      rfl
    have texts : ∀ id ∈ out.take count, id < Tokenizer.maxVocab ∧ model.text id ≠ "" := by
      refine mergeLoop_all (Q := fun id => id < Tokenizer.maxVocab ∧ model.text id ≠ "")
        (fun _ both => both.1) (fun a b id here _ small joins => ⟨small, ?_⟩) fits ?_ run
      · rw [joins, ne_eq, String.append_eq_empty_iff]
        exact fun both => here.2 both.1
      · refine encodeChars_all (Q := fun id => id < Tokenizer.maxVocab ∧ model.text id ≠ "")
          (fun ch _ id small text => ⟨small, ?_⟩) known empty (by simp [Tokenizer.Buffer.used])
          first
        rw [text]
        exact String.singleton_ne_empty
    have long := spelled_long fun id member => (texts id member).2
    have taken : (out.take count).length = count := by
      rw [List.length_take]
      omega
    rw [same, used, spelt, String.length_append, taken] at long
    exact ⟨long, by rw [same, used, spelt], fun id member => (texts id member).2⟩

end Tokens

section Passes

variable {F : Type} {ops : Floats F} {m : Loaded F} {r : Request} {s : RunState F} {p : Progress}
  {pos : Nat}

/-- A model that can run, with the vocabulary the buffers are made for. -/
structure Ready (m : Loaded F) : Prop where
  small : Small m.config
  whole : ∃ floats, Whole m.config floats
  cut : Cut m.config (kvWidth m.config) (m.config.dim / m.config.nHeads) m.weights
  runnable : Runnable m.config
  vocabulary : m.config.vocabSize = ModelFile.maxVocab

/-- A prompt of entries of `VOCAB`, and no more passes than positions. -/
structure Fair (m : Loaded F) (r : Request) : Prop where
  fits : r.promptLen ≤ r.tokens.length
  entries : ∀ id ∈ r.tokens.take r.promptLen, id < ModelFile.maxVocab
  limit : r.limit ≤ m.config.seqLen

theorem argmax_some (ops : Floats F) {values : List F} (nonempty : 0 < values.length) :
    ∃ best, argmax ops values = some best ∧ best < values.length := by
  refine foldlM_invariant (P := (· < values.length)) (fun i inside best below => ?_) nonempty
  have inside := List.mem_range.mp inside
  refine ⟨if ops.gt values[i] values[best] then i else best, ?_, ?_⟩
  · rw [List.getElem?_eq_getElem inside, List.getElem?_eq_getElem below]
    rfl
  · split_ifs
    · exact inside
    · exact below

variable (ops) in
theorem turn_some (ready : Ready m) (fair : Fair m r) (known : p.token < ModelFile.maxVocab)
    (inside : pos < m.config.seqLen) (sized : Sized s) :
    ∃ s' p', turn ops m r pos s p = some (s', p') ∧ Sized s' ∧ p'.token < ModelFile.maxVocab ∧
      p'.generated = p.generated + 1 := by
  obtain ⟨floats, whole⟩ := ready.whole
  obtain ⟨s', pass, sized'⟩ := forward_some ops ready.small whole ready.cut ready.runnable
    (ready.vocabulary ▸ known) inside sized
  obtain ⟨next, picked, below⟩ : ∃ next, nextToken ops r pos s'.logits = some next ∧
      next < ModelFile.maxVocab := by
    unfold nextToken
    split_ifs with replayed
    · have room := fair.fits
      refine ⟨r.tokens[pos + 1], List.getElem?_eq_getElem _, fair.entries _ ?_⟩
      refine List.mem_of_getElem? (i := pos + 1) ?_
      rw [List.getElem?_take, if_pos replayed, List.getElem?_eq_getElem]
    · have nonempty : 0 < s'.logits.length := by
        rw [sized'.logits]
        decide
      obtain ⟨best, found, less⟩ := argmax_some ops nonempty
      exact ⟨best, found, sized'.logits ▸ less⟩
  exact ⟨s', _, bind_of pass (bind_of picked rfl), sized', below, rfl⟩

variable (ops) in
theorem turns_some (ready : Ready m) (fair : Fair m r) {left : Nat}
    (known : p.token < ModelFile.maxVocab) (inside : pos + left ≤ m.config.seqLen)
    (sized : Sized s) :
    ∃ s' p', turns ops m r left pos s p = some (s', p') ∧ Sized s' ∧
      p'.generated ≤ p.generated + left ∧
      (p'.token = 2 ∨ p'.generated = p.generated + left) := by
  induction left generalizing pos s p with
  | zero => exact ⟨s, p, rfl, sized, Nat.le_refl _, Or.inr rfl⟩
  | succ left ih =>
      obtain ⟨s1, p1, pass, sized1, known1, count⟩ :=
        turn_some ops ready fair known (show pos < m.config.seqLen by omega) sized
      by_cases last : p1.token = 2
      · refine ⟨s1, p1, bind_of pass (if_pos last), sized1, by omega, Or.inl last⟩
      · have later : pos + 1 + left ≤ m.config.seqLen := by omega
        obtain ⟨s', p', run, sized', few, over'⟩ := ih known1 later sized1
        refine ⟨s', p', bind_of pass ((if_neg last).trans run), sized', by omega, ?_⟩
        exact over'.imp id fun all => by omega

end Passes

section Replay

variable {F : Type} {ops : Floats F} {m : Loaded F} {r : Request} {vocab : Tokenizer.Model F}

/-- What a row of tokens prints that follows a token. -/
def echo (vocab : Tokenizer.Model F) : Nat → Nat → List Nat → List Char
  | previous, token, [] => emit vocab token previous
  | previous, token, next :: rest => emit vocab token previous ++ echo vocab token next rest

theorem turn_token {pos : Nat} {s s' : RunState F} {p p' : Progress}
    (pass : turn ops m r pos s p = some (s', p')) :
    nextToken ops r pos s'.logits = some p'.token ∧ p'.previous = p.token ∧
      p'.shown = p.shown ++ emit m.vocab p.token p.previous := by
  obtain ⟨t, -, rest⟩ := Option.bind_eq_some_iff.mp pass
  obtain ⟨next, picked, same⟩ := Option.bind_eq_some_iff.mp rest
  obtain ⟨rfl, rfl⟩ := Prod.mk.inj (Option.some.inj same)
  exact ⟨picked, rfl, rfl⟩

theorem turns_succ {left pos : Nat} {s : RunState F} {p : Progress} {out : RunState F × Progress}
    (run : turns ops m r (left + 1) pos s p = some out) :
    ∃ s1 p1, turn ops m r pos s p = some (s1, p1) ∧
      (if p1.token = 2 then some (s1, p1) else turns ops m r left (pos + 1) s1 p1) = some out := by
  obtain ⟨⟨s1, p1⟩, pass, rest⟩ := Option.bind_eq_some_iff.mp run
  exact ⟨s1, p1, pass, rest⟩

theorem turns_shown {left pos : Nat} {s s' : RunState F} {p p' : Progress}
    (run : turns ops m r left pos s p = some (s', p')) :
    ∃ more, (p'.finish m.vocab).shown = p.shown ++ emit m.vocab p.token p.previous ++ more := by
  induction left generalizing pos s p with
  | zero =>
      obtain ⟨rfl, rfl⟩ := Prod.mk.inj (Option.some.inj run)
      exact ⟨[], (List.append_nil _).symm⟩
  | succ left ih =>
      obtain ⟨s1, p1, pass, rest⟩ := turns_succ run
      obtain ⟨-, -, shown⟩ := turn_token pass
      split_ifs at rest
      · obtain ⟨rfl, rfl⟩ := Prod.mk.inj (Option.some.inj rest)
        exact ⟨emit m.vocab p1.token p1.previous, by rw [Progress.finish, shown]⟩
      · obtain ⟨more, all⟩ := ih rest
        exact ⟨emit m.vocab p1.token p1.previous ++ more, by rw [all, shown]; simp⟩

theorem turns_replay {todo behind : List Nat} {left pos : Nat} {s s' : RunState F}
    {p p' : Progress} (run : turns ops m r left pos s p = some (s', p'))
    (tokens : r.tokens.drop (pos + 1) = todo ++ behind)
    (inside : pos + 1 + todo.length ≤ r.promptLen) (enough : todo.length ≤ left)
    (goes : ∀ id ∈ todo, id ≠ 2) :
    ∃ more, (p'.finish m.vocab).shown =
      p.shown ++ echo m.vocab p.previous p.token todo ++ more := by
  induction todo generalizing left pos s p with
  | nil => exact turns_shown run
  | cons next rest ih =>
      rw [List.length_cons] at inside enough
      obtain ⟨left, rfl⟩ := Nat.exists_eq_add_of_le' (Nat.one_le_of_lt enough)
      obtain ⟨s1, p1, pass, run⟩ := turns_succ run
      obtain ⟨picked, previous, shown⟩ := turn_token pass
      have here : r.tokens[pos + 1]? = some next := by
        have first := congrArg (·[0]?) tokens
        simpa using first
      rw [nextToken, if_pos (by omega), here] at picked
      obtain token := Option.some.inj picked
      have behind' : r.tokens.drop (pos + 1 + 1) = rest ++ behind := by
        rw [← List.drop_drop, tokens]
        rfl
      rw [if_neg (token ▸ goes next List.mem_cons_self)] at run
      obtain ⟨more, all⟩ := ih run behind' (by omega) (by omega)
        fun id member => goes id (List.mem_cons_of_mem _ member)
      refine ⟨more, ?_⟩
      rw [all, shown, previous, ← token, echo, List.append_assoc p.shown]

theorem fallbackByte_none {text : List Char} (plain : '<' ∉ text) : fallbackByte text = none := by
  unfold fallbackByte
  split
  · exact absurd List.mem_cons_self plain
  · rfl

structure Printed (vocab : Tokenizer.Model F) (id : Nat) (text : List Char) : Prop where
  entry : ∃ entry, vocab.vocab[id]? = some entry ∧ entry.text.toList = text
  apart : id ≠ 1
  plain : '<' ∉ text

theorem emit_printed {id previous : Nat} {text : List Char} (printed : Printed vocab id text) :
    emit vocab id previous = if previous = 1 then text.dropWhile (· == ' ') else text := by
  obtain ⟨entry, here, rfl⟩ := printed.entry
  have trimmed : '<' ∉ entry.text.toList.dropWhile (· == ' ') :=
    fun member => printed.plain ((List.dropWhile_sublist _).mem member)
  unfold emit
  rw [here]
  dsimp only
  rw [if_neg printed.apart]
  split_ifs
  · rw [fallbackByte_none trimmed]
  · rw [fallbackByte_none printed.plain]

theorem echo_printed (text : Nat → List Char) {previous first : Nat} {rest : List Nat}
    (printed : ∀ id ∈ first :: rest, Printed vocab id (text id)) (apart : previous ≠ 1) :
    echo vocab previous first rest = (first :: rest).flatMap text := by
  induction rest generalizing previous first with
  | nil =>
      rw [echo, emit_printed (printed first List.mem_cons_self), if_neg apart]
      simp
  | cons next rest ih =>
      have here := printed first List.mem_cons_self
      rw [echo, emit_printed here, if_neg apart,
        ih (fun id member => printed id (List.mem_cons_of_mem _ member)) here.apart]
      rfl

theorem echo_first (text : Nat → List Char) {first : Nat} {rest : List Nat}
    (printed : ∀ id ∈ first :: rest, Printed vocab id (text id)) :
    echo vocab 1 first rest = (text first).dropWhile (· == ' ') ++ rest.flatMap text := by
  have here := printed first List.mem_cons_self
  cases rest with
  | nil =>
      rw [echo, emit_printed here, if_pos rfl]
      simp
  | cons next rest =>
      rw [echo, emit_printed here, if_pos rfl,
        echo_printed text (fun id member => printed id (List.mem_cons_of_mem _ member)) here.apart]

/-- A prompt that is shown as it was typed: known characters that fit the buffer, and no way to
spell one of the tokens that are not printed as they are. -/
structure Plain (vocab : Tokenizer.Model F) (prompt : String) : Prop where
  known : ∀ ch ∈ ' ' :: prompt.toList, Known vocab (String.singleton ch)
  short : prompt.length ≤ 126
  plain : '<' ∉ prompt.toList
  first : prompt.toList.head? ≠ some ' '
  markers : ∀ id, id = 1 ∨ id = 2 → ∃ entry, vocab.vocab[id]? = some entry ∧ '<' ∈ entry.text.toList

theorem spelled_chars {Score : Type} [Zero Score] (model : Tokenizer.Model Score)
    (ids : List Nat) :
    (spelled model ids).toList = ids.flatMap fun id => (model.text id).toList := by
  induction ids with
  | nil => rfl
  | cons id ids ih => rw [Tokenizer.spelled_cons, String.toList_append, ih, List.flatMap_cons]

theorem trimmed (text : Nat → List Char) {first : Nat} {rest : List Nat} {prompt : List Char}
    (spelt : (first :: rest).flatMap text = ' ' :: prompt) (nonempty : text first ≠ [])
    (unindented : prompt.head? ≠ some ' ') :
    (text first).dropWhile (· == ' ') ++ rest.flatMap text = prompt := by
  rw [List.flatMap_cons] at spelt
  cases here : text first with
  | nil => exact absurd here nonempty
  | cons ch more =>
      rw [here, List.cons_append] at spelt
      obtain ⟨rfl, behind⟩ := List.cons.inj spelt
      rw [← behind]
      cases more with
      | nil => rfl
      | cons next more =>
          have other : next ≠ ' ' := by
            rintro rfl
            exact unindented (by rw [← behind]; rfl)
          rw [List.dropWhile_cons_of_pos (by rfl),
            List.dropWhile_cons_of_neg (by simpa using other)]

theorem echo_prompt [Zero F] {prompt : String} (plain : Plain vocab prompt) {ids : List Nat}
    (spelt : spelled vocab ids = " " ++ prompt) (texts : ∀ id ∈ ids, vocab.text id ≠ "") :
    echo vocab 0 1 ids = prompt.toList ∧ ∀ id ∈ ids, id ≠ 2 := by
  have chars : ids.flatMap (fun id => (vocab.text id).toList) = ' ' :: prompt.toList := by
    rw [← spelled_chars, spelt, String.toList_append]
    rfl
  have unmarked : ∀ id ∈ ids, '<' ∉ (vocab.text id).toList := by
    intro id member here
    have inside : '<' ∈ ids.flatMap fun id => (vocab.text id).toList :=
      List.mem_flatMap.mpr ⟨id, member, here⟩
    rw [chars] at inside
    exact (List.mem_cons.mp inside).elim (by decide) plain.plain
  have entries : ∀ id ∈ ids, ∃ entry, vocab.vocab[id]? = some entry ∧
      entry.text = vocab.text id := by
    intro id member
    cases here : vocab.vocab[id]? with
    | none =>
        refine absurd ?_ (texts id member)
        rw [Tokenizer.Model.text, List.getD_eq_getElem?_getD, here]
        rfl
    | some entry =>
        refine ⟨entry, rfl, ?_⟩
        rw [Tokenizer.Model.text, List.getD_eq_getElem?_getD, here]
        rfl
  have apart : ∀ id ∈ ids, ¬(id = 1 ∨ id = 2) := by
    intro id member marker
    obtain ⟨entry, here, text⟩ := entries id member
    obtain ⟨entry', here', marked⟩ := plain.markers id marker
    obtain rfl := Option.some.inj (here.symm.trans here')
    exact unmarked id member (text ▸ marked)
  have printed : ∀ id ∈ ids, Printed vocab id (vocab.text id).toList := by
    intro id member
    obtain ⟨entry, here, text⟩ := entries id member
    exact ⟨⟨entry, here, by rw [text]⟩, fun one => apart id member (Or.inl one),
      unmarked id member⟩
  refine ⟨?_, fun id member two => apart id member (Or.inr two)⟩
  cases ids with
  | nil => cases chars
  | cons first rest =>
      have silent : emit vocab 1 0 = [] := by
        unfold emit
        split
        · rfl
        · rw [if_pos rfl]
      rw [echo, silent, List.nil_append, echo_first (fun id => (vocab.text id).toList) printed]
      refine trimmed (fun id => (vocab.text id).toList) chars ?_ plain.first
      rw [ne_eq, String.toList_eq_nil_iff]
      exact texts first List.mem_cons_self

end Replay

section Generation

variable {F : Type} (ops : Floats F) {m : Loaded F} {s : RunState F}

structure Replayed (vocab : Tokenizer.Model F) (prompt : String) (r : Request) (ids : List Nat) :
    Prop where
  tokens : ∃ behind, r.tokens.drop 1 = ids ++ behind
  whole : 1 + ids.length = r.promptLen
  few : ids.length ≤ prompt.length + 1
  shown : echo vocab 0 1 ids = prompt.toList
  goes : ∀ id ∈ ids, id ≠ 2

theorem prepare_some (m : Loaded F) (prompt : String) (steps : Nat) :
    ∃ r, prepare ops m prompt steps = some r ∧ Fair m r ∧ r.limit = min steps m.config.seqLen ∧
      (Plain m.vocab prompt → ∃ ids, Replayed m.vocab prompt r ids) := by
  let _ : Zero F := ⟨ops.zero⟩
  obtain ⟨count, out, run, length, few, small, spells⟩ :=
    encode_all m.vocab ops.gt prompt (List.replicate 127 0)
  rw [List.length_replicate] at length few spells
  refine ⟨⟨1 :: out, count + 1, min steps m.config.seqLen⟩, bind_of run rfl,
    ⟨Nat.succ_le_succ (length ▸ few), ?_, Nat.min_le_right _ _⟩, rfl, fun plain => ?_⟩
  · intro id member
    rcases List.mem_cons.mp member with rfl | later
    · decide
    · exact small id later
  · have short := plain.short
    obtain ⟨less, spelt, texts⟩ := spells plain.known (by omega)
    obtain ⟨shown, goes⟩ := echo_prompt plain spelt texts
    have taken : (out.take count).length = count := by
      rw [List.length_take]
      omega
    exact ⟨out.take count, ⟨out.drop count, (List.take_append_drop count out).symm⟩,
      by rw [taken, Nat.add_comm], by omega, shown, goes⟩

theorem ready_of_init {blob : List UInt8} (loaded : init ops blob = some (some m))
    (runnable : Runnable m.config) (vocabulary : m.config.vocabSize = ModelFile.maxVocab) :
    Ready m := by
  obtain ⟨bytes, parsed⟩ := loaded_parsed ops loaded
  obtain ⟨small, whole, cut⟩ := parsed_whole ops parsed
  exact ⟨small_of_tooLarge small, ⟨_, whole⟩, cut, runnable, vocabulary⟩

theorem generate_shown (ready : Ready m) (sized : Sized s) (prompt : String) (steps : Nat) :
    ∃ s' p, generate ops m s prompt steps = some (s', p) ∧ Sized s' ∧
      p.generated ≤ min steps m.config.seqLen ∧
      (p.token = 2 ∨ p.generated = min steps m.config.seqLen) ∧
      (Plain m.vocab prompt → prompt.length + 1 ≤ min steps m.config.seqLen →
        ∃ more, p.shown = '\n' :: prompt.toList ++ more) := by
  obtain ⟨r, prepared, fair, limit, replays⟩ := prepare_some ops m prompt steps
  obtain ⟨s', p', run, sized', few, last⟩ := turns_some ops ready fair
    (p := Progress.start) (show Progress.start.token < ModelFile.maxVocab by decide)
    (show 0 + r.limit ≤ m.config.seqLen by rw [Nat.zero_add]; exact fair.limit) sized
  have start : Progress.start.generated + r.limit = min steps m.config.seqLen := by
    rw [limit]
    exact Nat.zero_add _
  rw [start] at few last
  refine ⟨s', p'.finish m.vocab, bind_of prepared (bind_of run rfl), sized', few, last,
    fun plain enough => ?_⟩
  obtain ⟨ids, replayed⟩ := replays plain
  obtain ⟨behind, tokens⟩ := replayed.tokens
  have less := replayed.few
  obtain ⟨more, all⟩ := turns_replay run tokens (Nat.le_of_eq replayed.whole) (by omega)
    replayed.goes
  exact ⟨more, by rw [all]; exact congrArg (['\n'] ++ · ++ more) replayed.shown⟩

/-- A model that was accepted answers every prompt without a fault, with so many tokens or up to
the end of the sequence, and begins with the prompt if that is a plain one. -/
theorem prompt_shown {blob : List UInt8} (loaded : init ops blob = some (some m))
    (runnable : Runnable m.config) (vocabulary : m.config.vocabSize = ModelFile.maxVocab)
    (sized : Sized s) (prompt : String) (steps : Nat) :
    ∃ s' p, generate ops m s prompt steps = some (s', p) ∧ Sized s' ∧
      p.generated ≤ min steps m.config.seqLen ∧
      (p.token = 2 ∨ p.generated = min steps m.config.seqLen) ∧
      (Plain m.vocab prompt → prompt.length + 1 ≤ min steps m.config.seqLen →
        ∃ more, p.shown = '\n' :: prompt.toList ++ more) :=
  generate_shown ops (ready_of_init ops loaded runnable vocabulary) sized prompt steps

section Scenario

def intFloats : Floats Int where
  ofBits n := n
  ofNat n := n
  zero := 0
  one := 1
  epsilon := 1
  add := Int.add
  sub := Int.sub
  mul := Int.mul
  div := Int.tdiv
  neg := Int.neg
  sqrt v := v
  exp v := v
  gt a b := decide (b < a)

/-- One layer of one head and two dimensions, 32000 tokens and 16 positions. -/
def smallConfig : Config := ⟨2, 2, 1, 1, 1, 32000, 16⟩

def smallModel : List UInt8 :=
  [2, 0, 0, 0, 2, 0, 0, 0, 1, 0, 0, 0, 1, 0, 0, 0, 1, 0, 0, 0, 0, 125, 0, 0, 16, 0, 0, 0] ++
    List.replicate (4 * 64066) 1

/-- The first three entries are those of every such vocabulary. -/
def smallEntries : List Entry :=
  [⟨0, "<unk>"⟩, ⟨0, "\n<s>\n"⟩, ⟨0, "\n</s>\n"⟩, ⟨0, " "⟩, ⟨0, "a"⟩, ⟨0, "b"⟩, ⟨1, "ab"⟩]

theorem smallModel_length : smallModel.length = 28 + 4 * 64066 := by
  rw [smallModel, List.length_append, List.length_replicate]
  rfl

theorem small_loaded : ∃ m : Loaded Int,
    init intFloats (packAssets smallModel (tokenizerFile 6 smallEntries)) = some (some m) ∧
      m.config = smallConfig ∧ m.vocab.vocab = smallEntries.map (Entry.token intFloats) := by
  have whole : Whole smallConfig ((smallModel.length - 28) / 4) := by
    rw [smallModel_length]
    exact ⟨by decide, by decide, by decide +kernel, by decide +kernel⟩
  obtain ⟨w, parsed, -⟩ := parseModel_whole intFloats
    (show ¬smallModel.length < 28 by rw [smallModel_length]; decide) rfl rfl whole
  have few : ∀ entry ∈ smallEntries, entry.text.utf8ByteSize < 2 ^ 32 := by decide +kernel
  obtain ⟨vocab, installed, tokens⟩ := install_accepted intFloats 6 few parsed
  have rest : (tokenizerFile 6 smallEntries).length = 81 := by decide +kernel
  have read := packed_read intFloats smallModel (tokenizerFile 6 smallEntries) []
    (by rw [smallModel_length, rest]; decide)
  rw [List.append_nil] at read
  exact ⟨_, read.trans installed, rfl, tokens⟩

theorem small_runnable : Runnable smallConfig := ⟨by decide, fun _ => ⟨by decide, by decide⟩⟩

theorem small_plain {vocab : Tokenizer.Model Int}
    (tokens : vocab.vocab = smallEntries.map (Entry.token intFloats)) {prompt : String}
    (spelled : prompt.toList.all (['a', 'b'].contains ·) = true) (short : prompt.length ≤ 126) :
    Plain vocab prompt := by
  have letters : ∀ ch ∈ prompt.toList, ch = 'a' ∨ ch = 'b' := by simpa using spelled
  refine ⟨fun ch inside => ?_, short, fun inside => ?_, fun first => ?_, ?_⟩
  · rcases List.mem_cons.mp inside with rfl | inside
    · exact ⟨⟨" ", 0⟩, by simp [tokens, smallEntries, Entry.token, intFloats], rfl⟩
    · rcases letters ch inside with rfl | rfl
      · exact ⟨⟨"a", 0⟩, by simp [tokens, smallEntries, Entry.token, intFloats], rfl⟩
      · exact ⟨⟨"b", 0⟩, by simp [tokens, smallEntries, Entry.token, intFloats], rfl⟩
  · rcases letters _ inside with same | same
    · exact absurd same (by decide)
    · exact absurd same (by decide)
  · rcases letters _ (List.mem_of_mem_head? first) with same | same
    · exact absurd same (by decide)
    · exact absurd same (by decide)
  · rw [tokens]
    rintro id (rfl | rfl)
    · exact ⟨⟨"\n<s>\n", 0⟩, rfl, by decide⟩
    · exact ⟨⟨"\n</s>\n", 0⟩, rfl, by decide⟩

theorem prompt_shown_ab : ∃ (m : Loaded Int) (s : RunState Int) (p : Progress) (more : List Char),
    init intFloats (packAssets smallModel (tokenizerFile 6 smallEntries)) = some (some m) ∧
      generate intFloats m (freshState intFloats) "ab" 8 = some (s, p) ∧
      p.shown = '\n' :: 'a' :: 'b' :: more := by
  obtain ⟨m, loaded, config, tokens⟩ := small_loaded
  obtain ⟨s, p, run, -, -, -, shown⟩ := prompt_shown intFloats loaded
    (by rw [config]; exact small_runnable) (by rw [config]; rfl) (freshState_sized intFloats) "ab" 8
  obtain ⟨more, all⟩ := shown (small_plain tokens (by decide) (by decide)) (by rw [config]; decide)
  exact ⟨m, s, p, more, loaded, run, all⟩

end Scenario

end Generation

end FiveAM.Llm.Generate
