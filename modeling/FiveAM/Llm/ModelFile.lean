/- GID: FiveAM/Llm/ModelFile
   source: kernel/src/llm.rs
   digest: The header of a model file, and the weights cut out of what follows it. -/

import FiveAM.Lib.Checked
import FiveAM.Lib.Loops
import Mathlib.Algebra.BigOperators.Group.List.Basic
import Mathlib.Tactic.IntervalCases

set_option autoImplicit false
set_option relaxedAutoImplicit false

namespace FiveAM.Llm.ModelFile

open FiveAM.Lib.Checked

/-- Model dimensions, read from the file rather than assumed. -/
structure Config where
  dim : Nat
  hiddenDim : Nat
  nLayers : Nat
  nHeads : Nat
  nKvHeads : Nat
  vocabSize : Nat
  seqLen : Nat
  deriving DecidableEq

def maxDim : Nat := 512

def maxHidden : Nat := 1408

def maxLayers : Nat := 8

def maxSeq : Nat := 256

def maxVocab : Nat := 32000

def maxHeads : Nat := 8

/-- `a / b`; `none` is the panic of a division by zero. -/
def quotient (a b : Nat) : Option Nat := if b = 0 then none else some (a / b)

/-- A product of machine words, factor by factor; `none` is an overflow. -/
def product (factors : List Nat) : Option Nat :=
  factors.foldlM (fun acc factor => fit 64 (acc * factor)) 1

namespace Config

def headSize (c : Config) : Option Nat := quotient c.dim c.nHeads

def kvDim (c : Config) : Option Nat :=
  (fit 64 (c.dim * c.nKvHeads)).bind fun total => quotient total c.nHeads

def tooLarge (c : Config) : Bool :=
  decide (maxDim < c.dim ∨ maxHidden < c.hiddenDim ∨ maxLayers < c.nLayers ∨ maxSeq < c.seqLen ∨
    maxVocab < c.vocabSize ∨ maxHeads < c.nHeads)

end Config

/-- The operations on `f32`. -/
structure Floats (F : Type) where
  ofBits : Nat → F
  ofNat : Nat → F
  zero : F
  one : F
  epsilon : F
  add : F → F → F
  sub : F → F → F
  mul : F → F → F
  div : F → F → F
  neg : F → F
  sqrt : F → F
  exp : F → F
  gt : F → F → Bool

structure Weights (F : Type) where
  tokenEmbedding : List F
  rmsAtt : List F
  wq : List F
  wk : List F
  wv : List F
  wo : List F
  rmsFfn : List F
  w1 : List F
  w2 : List F
  w3 : List F
  rmsFinal : List F
  freqCos : List F
  freqSin : List F

/-- Four bytes, the low one first; `none` is the panic of an index out of bounds. -/
def readU32 (bytes : List UInt8) (i : Nat) : Option Nat :=
  match bytes[i]?, bytes[i + 1]?, bytes[i + 2]?, bytes[i + 3]? with
  | some a, some b, some c, some d =>
      some (a.toNat + 256 * (b.toNat + 256 * (c.toNat + 256 * d.toNat)))
  | _, _, _, _ => none

/-- The bits of an `i32`, as `usize`. -/
def signExtend (bits : Nat) : Nat := if bits < 2 ^ 31 then bits else 2 ^ 64 - 2 ^ 32 + bits

def unsignedAbs (bits : Nat) : Nat := if bits < 2 ^ 31 then bits else 2 ^ 32 - bits

def readHeader (bytes : List UInt8) : Option Config := do
  let dim ← readU32 bytes 0
  let hiddenDim ← readU32 bytes 4
  let nLayers ← readU32 bytes 8
  let nHeads ← readU32 bytes 12
  let nKvHeads ← readU32 bytes 16
  let vocabSize ← readU32 bytes 20
  let seqLen ← readU32 bytes 24
  some ⟨signExtend dim, signExtend hiddenDim, signExtend nLayers, signExtend nHeads,
    signExtend nKvHeads, unsignedAbs vocabSize, signExtend seqLen⟩

def floatsOf {F : Type} (ops : Floats F) (bytes : List UInt8) : List F :=
  (List.range ((bytes.length - 28) / 4)).map fun i =>
    ops.ofBits ((readU32 bytes (28 + 4 * i)).getD 0)

/-- What each tensor takes, in the order of the file. -/
def counts (c : Config) (kvDim headSize : Nat) : List (Option Nat) :=
  [product [c.vocabSize, c.dim],
    product [c.nLayers, c.dim],
    product [c.nLayers, c.dim, c.nHeads, headSize],
    product [c.nLayers, c.dim, kvDim],
    product [c.nLayers, c.dim, kvDim],
    product [c.nLayers, c.nHeads, headSize, c.dim],
    product [c.nLayers, c.dim],
    product [c.nLayers, c.hiddenDim, c.dim],
    product [c.nLayers, c.dim, c.hiddenDim],
    product [c.nLayers, c.hiddenDim, c.dim],
    some c.dim,
    (product [c.seqLen, headSize]).map (· / 2),
    (product [c.seqLen, headSize]).map (· / 2)]

/-- The tensors follow each other back to back. -/
def takeAll {F : Type} (floats : List F) : Nat → List (Option Nat) → Option (List (List F))
  | _, [] => some []
  | start, count :: rest => do
      let count ← count
      let stop ← fit 64 (start + count)
      let slice ← part floats start stop
      let others ← takeAll floats stop rest
      some (slice :: others)

def weightsOf {F : Type} : List (List F) → Option (Weights F)
  | [a, b, c, d, e, f, g, h, i, j, k, l, m] => some ⟨a, b, c, d, e, f, g, h, i, j, k, l, m⟩
  | _ => none

/-- The outer `none` is a fault, an overflow, a division by zero or a slice out of bounds; the
inner one is a model that is refused. -/
def parseModel {F : Type} (ops : Floats F) (bytes : List UInt8) :
    Option (Option (Config × Weights F)) :=
  if bytes.length < 28 then some none
  else do
    let c ← readHeader bytes
    if c.tooLarge then some none
    else do
      let kvDim ← c.kvDim
      let headSize ← c.headSize
      let slices ← takeAll (floatsOf ops bytes) 0 (counts c kvDim headSize)
      let w ← weightsOf slices
      some (some (c, w))

section Products

variable {l : List Nat} {n k : Nat}

theorem product_value (run : product l = some n) : n = l.prod := by
  suffices value : ∀ acc, l.foldlM (fun acc factor => fit 64 (acc * factor)) acc = some n →
      n = acc * l.prod by
    rw [value 1 run, Nat.one_mul]
  clear run
  induction l with
  | nil =>
      intro acc run
      rw [List.prod_nil, Nat.mul_one]
      exact (Option.some.inj run).symm
  | cons factor rest ih =>
      intro acc run
      rw [List.foldlM_cons] at run
      obtain ⟨next, fits, later⟩ := Option.bind_eq_some_iff.mp run
      rw [fit] at fits
      split_ifs at fits
      obtain rfl := Option.some.inj fits
      rw [ih _ later, List.prod_cons, Nat.mul_assoc]

theorem product_small (small : ∀ factor ∈ l, factor ≤ 2 ^ 15) (few : l.length ≤ 4) :
    product l = some l.prod := by
  suffices runs : ∀ acc, acc * 2 ^ (15 * l.length) < 2 ^ 64 →
      l.foldlM (fun acc factor => fit 64 (acc * factor)) acc = some (acc * l.prod) by
    rw [product, runs 1, Nat.one_mul]
    rw [Nat.one_mul]
    exact Nat.pow_lt_pow_right (by decide) (by omega)
  clear few
  induction l with
  | nil =>
      intro acc _
      rw [List.prod_nil, Nat.mul_one]
      rfl
  | cons factor rest ih =>
      intro acc bound
      rw [List.length_cons, Nat.mul_add, Nat.mul_one, Nat.add_comm, Nat.pow_add, ← Nat.mul_assoc]
        at bound
      have first := Nat.mul_le_mul_left acc (small factor List.mem_cons_self)
      have later : acc * factor * 2 ^ (15 * rest.length) < 2 ^ 64 :=
        Nat.lt_of_le_of_lt (Nat.mul_le_mul_right _ first) bound
      have fits : acc * factor < 2 ^ 64 :=
        Nat.lt_of_le_of_lt (Nat.le_mul_of_pos_right _ (Nat.two_pow_pos _)) later
      rw [List.foldlM_cons, fit_eq fits, List.prod_cons, ← Nat.mul_assoc]
      exact ih (fun f inside => small f (List.mem_cons_of_mem _ inside)) _ later

theorem product_append (run : product l = some n) : product (l ++ [k]) = fit 64 (n * k) := by
  rw [product, List.foldlM_append]
  change (product l).bind _ = _
  rw [run, Option.bind_some, List.foldlM_cons]
  cases fit 64 (n * k) with
  | none => rfl
  | some total => rfl

end Products

section Cutting

variable {F : Type} {floats : List F} {start : Nat} {ns : List Nat} {slices : List (List F)}
  {wanted : List (Option Nat)}

theorem part_length {xs ys : List F} {a b : Nat} (run : part xs a b = some ys) :
    ys.length = b - a ∧ a ≤ b ∧ b ≤ xs.length := by
  rw [part] at run
  split_ifs at run with inside
  obtain rfl := Option.some.inj run
  rw [List.length_drop, List.length_take, Nat.min_eq_left inside.2]
  exact ⟨rfl, inside⟩

theorem takeAll_sound (low : start ≤ floats.length) (small : start < 2 ^ 64)
    (run : takeAll floats start wanted = some slices) :
    (∀ count ∈ wanted, count.isSome = true) ∧
      slices.map List.length = wanted.map (·.getD 0) ∧
      start + (wanted.map (·.getD 0)).sum ≤ floats.length ∧
      start + (wanted.map (·.getD 0)).sum < 2 ^ 64 := by
  induction wanted generalizing start slices with
  | nil =>
      rw [takeAll] at run
      obtain rfl := Option.some.inj run
      exact ⟨by simp, rfl, by simpa using low, by simpa using small⟩
  | cons count rest ih =>
      rw [takeAll] at run
      obtain ⟨n, counted, first⟩ := Option.bind_eq_some_iff.mp run
      obtain ⟨stop, fits, second⟩ := Option.bind_eq_some_iff.mp first
      obtain ⟨slice, cut, third⟩ := Option.bind_eq_some_iff.mp second
      obtain ⟨others, later, all⟩ := Option.bind_eq_some_iff.mp third
      obtain rfl := Option.some.inj all
      rw [fit] at fits
      split_ifs at fits with below
      obtain rfl := Option.some.inj fits
      obtain ⟨length, -, inside⟩ := part_length cut
      obtain ⟨present, lengths, bound, small'⟩ := ih inside below later
      rw [List.map_cons, List.map_cons, List.sum_cons, lengths, length, Nat.add_sub_cancel_left,
        counted, ← Nat.add_assoc]
      exact ⟨List.forall_mem_cons.mpr ⟨rfl, present⟩, rfl, bound, small'⟩

theorem takeAll_complete (floats : List F) (start : Nat)
    (bound : start + ns.sum ≤ floats.length) (small : start + ns.sum < 2 ^ 64) :
    ∃ slices, takeAll floats start (ns.map some) = some slices ∧ slices.map List.length = ns := by
  induction ns generalizing start with
  | nil => exact ⟨[], rfl, rfl⟩
  | cons n rest ih =>
      rw [List.sum_cons, ← Nat.add_assoc] at bound small
      obtain ⟨others, later, lengths⟩ := ih _ bound small
      have below : start + n < 2 ^ 64 := by omega
      have cut : part floats start (start + n) = some ((floats.take (start + n)).drop start) :=
        part_eq (by omega) (by omega)
      refine ⟨(floats.take (start + n)).drop start :: others, ?_, ?_⟩
      · rw [List.map_cons, takeAll]
        change (fit 64 (start + n)).bind _ = _
        rw [fit_eq below, Option.bind_some, cut]
        change (takeAll floats (start + n) (rest.map some)).bind _ = _
        rw [later]
        rfl
      · rw [List.map_cons, lengths, (part_length cut).1, Nat.add_sub_cancel_left]

end Cutting

section Parsing

variable {c : Config} {kvDim headSize : Nat}

def sizes (c : Config) (kvDim headSize : Nat) : List Nat :=
  [c.vocabSize * c.dim, c.nLayers * c.dim, c.nLayers * c.dim * c.nHeads * headSize,
    c.nLayers * c.dim * kvDim, c.nLayers * c.dim * kvDim, c.nLayers * c.nHeads * headSize * c.dim,
    c.nLayers * c.dim, c.nLayers * c.hiddenDim * c.dim, c.nLayers * c.dim * c.hiddenDim,
    c.nLayers * c.hiddenDim * c.dim, c.dim, c.seqLen * headSize / 2, c.seqLen * headSize / 2]

theorem product_getD {l : List Nat} (present : (product l).isSome = true) :
    (product l).getD 0 = l.prod := by
  obtain ⟨n, run⟩ := Option.isSome_iff_exists.mp present
  rw [run, Option.getD_some, product_value run]

theorem counts_getD (present : ∀ count ∈ counts c kvDim headSize, count.isSome = true) :
    (counts c kvDim headSize).map (·.getD 0) = sizes c kvDim headSize := by
  simp only [counts, List.forall_mem_cons, Option.isSome_map] at present
  obtain ⟨h1, h2, h3, h4, -, h5, -, h6, h7, -, -, h8, -, -⟩ := present
  have half : ((product [c.seqLen, headSize]).map (· / 2)).getD 0 = c.seqLen * headSize / 2 := by
    obtain ⟨n, run⟩ := Option.isSome_iff_exists.mp h8
    rw [run, product_value run]
    simp
  simp only [counts, sizes, List.map_cons, List.map_nil, product_getD h1, product_getD h2,
    product_getD h3, product_getD h4, product_getD h5, product_getD h6, product_getD h7, half,
    Option.getD_some, List.prod_cons, List.prod_nil, Nat.mul_one, Nat.mul_assoc]

theorem counts_small (kvDim headSize : Nat) (small : c.tooLarge = false) (head : headSize ≤ maxDim)
    (heavy : c.nLayers * c.dim * kvDim < 2 ^ 64) :
    counts c kvDim headSize = (sizes c kvDim headSize).map some := by
  have low := of_decide_eq_false small
  simp only [not_or, Nat.not_lt] at low
  obtain ⟨dim, hidden, layers, seq, vocab, heads⟩ := low
  unfold maxDim maxHidden maxLayers maxSeq maxVocab maxHeads at *
  have pair : ∀ a b, a ≤ 32000 → b ≤ 32000 → product [a, b] = some (a * b) := by
    intro a b a_in b_in
    rw [product_small (by simp; omega) (by simp)]
    simp
  have triple : ∀ a b d, a ≤ 32000 → b ≤ 32000 → d ≤ 32000 →
      product [a, b, d] = some (a * b * d) := by
    intro a b d a_in b_in d_in
    rw [product_small (by simp; omega) (by simp)]
    simp [Nat.mul_assoc]
  have four : ∀ a b d e, a ≤ 32000 → b ≤ 32000 → d ≤ 32000 → e ≤ 32000 →
      product [a, b, d, e] = some (a * b * d * e) := by
    intro a b d e a_in b_in d_in e_in
    rw [product_small (by simp; omega) (by simp)]
    simp [Nat.mul_assoc]
  have keys : product [c.nLayers, c.dim, kvDim] = some (c.nLayers * c.dim * kvDim) := by
    have last := product_append (k := kvDim) (pair c.nLayers c.dim (by omega) (by omega))
    rw [fit_eq heavy] at last
    exact last
  rw [counts, pair _ _ (by omega) (by omega), pair _ _ (by omega) (by omega),
    four _ _ _ _ (by omega) (by omega) (by omega) (by omega), keys,
    four _ _ _ _ (by omega) (by omega) (by omega) (by omega),
    triple _ _ _ (by omega) (by omega) (by omega), triple _ _ _ (by omega) (by omega) (by omega),
    pair _ _ (by omega) (by omega)]
  rfl

variable {F : Type} {ops : Floats F} {bytes : List UInt8}

/-- The weights have the sizes the header gives them. -/
structure Cut (c : Config) (kvDim headSize : Nat) (w : Weights F) : Prop where
  tokenEmbedding : w.tokenEmbedding.length = c.vocabSize * c.dim
  rmsAtt : w.rmsAtt.length = c.nLayers * c.dim
  wq : w.wq.length = c.nLayers * c.dim * c.nHeads * headSize
  wk : w.wk.length = c.nLayers * c.dim * kvDim
  wv : w.wv.length = c.nLayers * c.dim * kvDim
  wo : w.wo.length = c.nLayers * c.nHeads * headSize * c.dim
  rmsFfn : w.rmsFfn.length = c.nLayers * c.dim
  w1 : w.w1.length = c.nLayers * c.hiddenDim * c.dim
  w2 : w.w2.length = c.nLayers * c.dim * c.hiddenDim
  w3 : w.w3.length = c.nLayers * c.hiddenDim * c.dim
  rmsFinal : w.rmsFinal.length = c.dim
  freqCos : w.freqCos.length = c.seqLen * headSize / 2
  freqSin : w.freqSin.length = c.seqLen * headSize / 2

theorem weightsOf_cut {slices : List (List F)}
    (lengths : slices.map List.length = sizes c kvDim headSize) :
    ∃ w, weightsOf slices = some w ∧ Cut c kvDim headSize w := by
  have thirteen := congrArg List.length lengths
  rw [List.length_map] at thirteen
  match slices, thirteen with
  | [a, b, d, e, f, g, h, i, j, k, l, m, n], _ =>
      simp only [sizes, List.map_cons, List.map_nil, List.cons.injEq, and_true] at lengths
      obtain ⟨h1, h2, h3, h4, h5, h6, h7, h8, h9, h10, h11, h12, h13⟩ := lengths
      exact ⟨_, rfl, h1, h2, h3, h4, h5, h6, h7, h8, h9, h10, h11, h12, h13⟩

/-- A header the weights after it can be cut by. -/
structure Whole (c : Config) (floats : Nat) : Prop where
  heads : c.nHeads ≠ 0
  keys : c.dim * c.nKvHeads < 2 ^ 64
  there : (sizes c (c.dim * c.nKvHeads / c.nHeads) (c.dim / c.nHeads)).sum ≤ floats
  small : (sizes c (c.dim * c.nKvHeads / c.nHeads) (c.dim / c.nHeads)).sum < 2 ^ 64

theorem floatsOf_length : (floatsOf ops bytes).length = (bytes.length - 28) / 4 := by
  rw [floatsOf, List.length_map, List.length_range]

theorem parseModel_whole (ops : Floats F) (long : ¬bytes.length < 28)
    (header : readHeader bytes = some c) (small : c.tooLarge = false)
    (whole : Whole c ((bytes.length - 28) / 4)) :
    ∃ w, parseModel ops bytes = some (some (c, w)) ∧
      Cut c (c.dim * c.nKvHeads / c.nHeads) (c.dim / c.nHeads) w := by
  have dim : c.dim ≤ maxDim := by
    have low := of_decide_eq_false small
    omega
  have heavy : c.nLayers * c.dim * (c.dim * c.nKvHeads / c.nHeads) < 2 ^ 64 := by
    have total := whole.small
    simp only [sizes, List.sum_cons] at total
    omega
  obtain ⟨slices, taken, lengths⟩ := takeAll_complete (floatsOf ops bytes) 0
    (by rw [Nat.zero_add, floatsOf_length]; exact whole.there)
    (by rw [Nat.zero_add]; exact whole.small)
  rw [← counts_small _ _ small (Nat.le_trans (Nat.div_le_self _ _) dim) heavy] at taken
  obtain ⟨w, weights, sized⟩ := weightsOf_cut lengths
  refine ⟨w, ?_, sized⟩
  have kvDim : c.kvDim = some (c.dim * c.nKvHeads / c.nHeads) := by
    rw [Config.kvDim, fit_eq whole.keys, Option.bind_some, quotient, if_neg whole.heads]
  have headSize : c.headSize = some (c.dim / c.nHeads) := by
    rw [Config.headSize, quotient, if_neg whole.heads]
  rw [parseModel, if_neg long, header]
  change (if c.tooLarge then some none
    else c.kvDim.bind fun kvDim => c.headSize.bind fun headSize =>
    (takeAll (floatsOf ops bytes) 0 (counts c kvDim headSize)).bind fun slices =>
      (weightsOf slices).bind fun w => some (some (c, w))) = _
  rw [small, if_neg Bool.false_ne_true, kvDim, Option.bind_some, headSize, Option.bind_some, taken,
    Option.bind_some, weights, Option.bind_some]

/-- Parsing panics unless the weights can be cut by the header. -/
theorem whole_of_parse (long : ¬bytes.length < 28) (header : readHeader bytes = some c)
    (small : c.tooLarge = false) {answer : Option (Config × Weights F)}
    (run : parseModel ops bytes = some answer) :
    Whole c ((bytes.length - 28) / 4) ∧ ∃ w, answer = some (c, w) ∧
      Cut c (c.dim * c.nKvHeads / c.nHeads) (c.dim / c.nHeads) w := by
  rw [parseModel, if_neg long, header] at run
  change (if c.tooLarge then some none
    else c.kvDim.bind fun kvDim => c.headSize.bind fun headSize =>
    (takeAll (floatsOf ops bytes) 0 (counts c kvDim headSize)).bind fun slices =>
      (weightsOf slices).bind fun w => some (some (c, w))) = _ at run
  rw [small, if_neg Bool.false_ne_true] at run
  obtain ⟨kvDim, keys, first⟩ := Option.bind_eq_some_iff.mp run
  obtain ⟨headSize, heads, second⟩ := Option.bind_eq_some_iff.mp first
  obtain ⟨slices, taken, third⟩ := Option.bind_eq_some_iff.mp second
  obtain ⟨w, weights, all⟩ := Option.bind_eq_some_iff.mp third
  obtain rfl := Option.some.inj all
  rw [Config.headSize, quotient] at heads
  split_ifs at heads with nonzero
  obtain rfl := Option.some.inj heads
  obtain ⟨total, fits, divided⟩ := Option.bind_eq_some_iff.mp keys
  rw [fit] at fits
  split_ifs at fits with below
  obtain rfl := Option.some.inj fits
  rw [quotient, if_neg nonzero] at divided
  obtain rfl := Option.some.inj divided
  obtain ⟨present, lengths, there, small'⟩ :=
    takeAll_sound (Nat.zero_le _) (by decide) taken
  rw [counts_getD present] at lengths there small'
  rw [Nat.zero_add] at there small'
  rw [floatsOf_length] at there
  obtain ⟨w', same, cut⟩ := weightsOf_cut lengths
  obtain rfl := Option.some.inj (same.symm.trans weights)
  exact ⟨⟨nonzero, below, there, small'⟩, w', rfl, cut⟩

theorem readHeader_some (long : ¬bytes.length < 28) : ∃ c, readHeader bytes = some c := by
  have read : ∀ i, i + 3 < bytes.length → ∃ n, readU32 bytes i = some n := by
    intro i inside
    rw [readU32, List.getElem?_eq_getElem (by omega), List.getElem?_eq_getElem (by omega),
      List.getElem?_eq_getElem (by omega), List.getElem?_eq_getElem (by omega)]
    exact ⟨_, rfl⟩
  obtain ⟨dim, h1⟩ := read 0 (by omega)
  obtain ⟨hidden, h2⟩ := read 4 (by omega)
  obtain ⟨layers, h3⟩ := read 8 (by omega)
  obtain ⟨heads, h4⟩ := read 12 (by omega)
  obtain ⟨keys, h5⟩ := read 16 (by omega)
  obtain ⟨vocab, h6⟩ := read 20 (by omega)
  obtain ⟨seq, h7⟩ := read 24 (by omega)
  rw [readHeader, h1, h2, h3, h4, h5, h6, h7]
  exact ⟨_, rfl⟩

end Parsing

end FiveAM.Llm.ModelFile
