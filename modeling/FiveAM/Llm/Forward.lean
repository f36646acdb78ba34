/- GID: FiveAM/Llm/Forward
   source: kernel/src/llm.rs
   digest: One pass through the network, with every index and slice checked. -/

import FiveAM.Llm.ModelFile

set_option autoImplicit false
set_option relaxedAutoImplicit false

namespace FiveAM.Llm.Forward

open FiveAM.Lib.Checked FiveAM.Llm.ModelFile

structure RunState (F : Type) where
  x : List F
  xb : List F
  xb2 : List F
  hb : List F
  hb2 : List F
  q : List F
  att : List F
  logits : List F
  keyCache : List F
  valueCache : List F

/-- What is computed from the header before each pass. -/
structure Shape where
  kvDim : Nat
  headSize : Nat
  kvMul : Nat

variable {F : Type} (ops : Floats F)

/-- `xs[i] = v`; `none` is the panic of an index out of bounds. -/
def put (xs : List F) (i : Nat) (v : F) : Option (List F) :=
  if i < xs.length then some (xs.set i v) else none

/-- `&xs[start..]`. -/
def suffix (xs : List F) (start : Nat) : Option (List F) :=
  if start ≤ xs.length then some (xs.drop start) else none

def putBack (xs : List F) (start : Nat) (slice : List F) : List F :=
  xs.take start ++ slice ++ xs.drop (start + slice.length)

/-- `xs[..n].copy_from_slice(row)`. -/
def copyInto (xs : List F) (n : Nat) (row : List F) : Option (List F) :=
  (part xs 0 n).bind fun target =>
    if row.length = target.length then some (putBack xs 0 row) else none

/-- The sum of products `a[i] * b[offset + i]`. -/
def dot (a b : List F) (offset n : Nat) (start : F) : Option F :=
  (List.range n).foldlM (fun sum i => do
    let u ← a[i]?
    let v ← b[offset + i]?
    some (ops.add sum (ops.mul u v))) start

def rmsnorm (out x weight : List F) (size : Nat) : Option (List F) := do
  let sum ← dot ops x x 0 size ops.zero
  let scale := ops.div ops.one
    (ops.sqrt (ops.add (ops.div sum (ops.ofNat size)) ops.epsilon))
  (List.range size).foldlM (fun out i => do
    let g ← weight[i]?
    let v ← x[i]?
    put out i (ops.mul g (ops.mul v scale))) out

def softmax (x : List F) : Option (List F) := do
  let first ← x[0]?
  let max := x.foldl (fun max value => if ops.gt value max then value else max) first
  let x := x.map fun value => ops.exp (ops.sub value max)
  let sum := x.foldl ops.add ops.zero
  some (x.map fun value => ops.div value sum)

/-- `out = W x`, where `W` is stored row by row. -/
def matmul (out x w : List F) (n d : Nat) : Option (List F) :=
  (List.range d).foldlM (fun out i => do
    let row ← part w (i * n) (i * n + n)
    let sum ← dot ops row x 0 n ops.zero
    put out i sum) out

/-- Rotate a pair of dimensions by the angle of a position. -/
def rotate (w : Weights F) (xs : List F) (place base : Nat) : Option (List F) := do
  let cos ← w.freqCos[place]?
  let sin ← w.freqSin[place]?
  let a ← xs[base]?
  let b ← xs[base + 1]?
  let xs ← put xs base (ops.sub (ops.mul a cos) (ops.mul b sin))
  put xs (base + 1) (ops.add (ops.mul a sin) (ops.mul b cos))

/-- Rotate every pair of the heads that begin at an offset. -/
def rotateHeads (w : Weights F) (heads headSize pos offset : Nat) (xs : List F) :
    Option (List F) :=
  let half := headSize / 2
  (List.range heads).foldlM (fun xs head =>
    (List.range half).foldlM (fun xs i =>
      rotate ops w xs (pos * half + i) (offset + head * headSize + i * 2)) xs) xs

/-- Where the cache has the part of a head at a time. -/
def cachePlace (c : Config) (d : Shape) (layer head t : Nat) : Option Nat :=
  (quotient head d.kvMul).map fun group =>
    layer * c.seqLen * d.kvDim + t * d.kvDim + group * d.headSize

def scores (c : Config) (d : Shape) (layer head pos : Nat) (keys q att : List F) :
    Option (List F) :=
  let scale := ops.div ops.one (ops.sqrt (ops.ofNat d.headSize))
  (List.range (pos + 1)).foldlM (fun att t => do
    let place ← cachePlace c d layer head t
    let score ← dot ops q keys place d.headSize ops.zero
    put att t (ops.mul score scale)) att

def mix (c : Config) (d : Shape) (layer head pos : Nat) (values att out : List F) :
    Option (List F) :=
  (List.range (pos + 1)).foldlM (fun out t => do
    let place ← cachePlace c d layer head t
    let weight ← att[t]?
    (List.range d.headSize).foldlM (fun out i => do
      let sum ← out[i]?
      let value ← values[place + i]?
      put out i (ops.add sum (ops.mul weight value))) out) out

def attendHead (c : Config) (d : Shape) (layer pos : Nat) (s : RunState F) (head : Nat) :
    Option (RunState F) := do
  let q ← part s.q (head * d.headSize) (head * d.headSize + d.headSize)
  let att ← part s.att (head * maxSeq) (head * maxSeq + pos + 1)
  let att ← scores ops c d layer head pos s.keyCache q att
  let att ← softmax ops att
  let out ← part s.xb (head * d.headSize) (head * d.headSize + d.headSize)
  let out ← mix ops c d layer head pos s.valueCache att (out.map fun _ => ops.zero)
  some { s with
    att := putBack s.att (head * maxSeq) att
    xb := putBack s.xb (head * d.headSize) out }

/-- One row of a cache, projected from the input. -/
def project (c : Config) (d : Shape) (keyOffset layer : Nat) (cache xb w : List F) :
    Option (List F) := do
  let row ← part cache keyOffset (keyOffset + d.kvDim)
  let xb ← part xb 0 c.dim
  let w ← suffix w (layer * c.dim * d.kvDim)
  let row ← matmul ops row xb w c.dim d.kvDim
  some (putBack cache keyOffset row)

/-- The projections of the input, the keys and the query rotated. -/
def projections (c : Config) (w : Weights F) (d : Shape) (pos : Nat) (s : RunState F)
    (layer : Nat) : Option (RunState F) := do
  let g ← suffix w.rmsAtt (layer * c.dim)
  let xb ← rmsnorm ops s.xb s.x g c.dim
  let keyOffset := layer * c.seqLen * d.kvDim + pos * d.kvDim
  let input ← part xb 0 c.dim
  let wq ← suffix w.wq (layer * c.dim * c.dim)
  let q ← matmul ops s.q input wq c.dim c.dim
  let keys ← project ops c d keyOffset layer s.keyCache xb w.wk
  let values ← project ops c d keyOffset layer s.valueCache xb w.wv
  let q ← rotateHeads ops w c.nHeads d.headSize pos 0 q
  let keys ← rotateHeads ops w c.nKvHeads d.headSize pos keyOffset keys
  some { s with xb := xb, q := q, keyCache := keys, valueCache := values }

/-- `x[i] += y[i]` for the first `n`. -/
def addTo (x y : List F) (n : Nat) : Option (List F) :=
  (List.range n).foldlM (fun x i => do
    let u ← x[i]?
    let v ← y[i]?
    put x i (ops.add u v)) x

def attended (c : Config) (w : Weights F) (s : RunState F) (layer : Nat) :
    Option (RunState F) := do
  let input ← part s.xb 0 c.dim
  let wo ← suffix w.wo (layer * c.dim * c.dim)
  let xb2 ← matmul ops s.xb2 input wo c.dim c.dim
  let x ← addTo ops s.x xb2 c.dim
  some { s with xb2 := xb2, x := x }

/-- `value * sigmoid(value)`, gated by the parallel projection. -/
def gate (hb hb2 : List F) (n : Nat) : Option (List F) :=
  (List.range n).foldlM (fun hb i => do
    let value ← hb[i]?
    let opened ← hb2[i]?
    put hb i (ops.mul (ops.mul value
      (ops.div ops.one (ops.add ops.one (ops.exp (ops.neg value))))) opened)) hb

def feedForward (c : Config) (w : Weights F) (s : RunState F) (layer : Nat) :
    Option (RunState F) := do
  let g ← suffix w.rmsFfn (layer * c.dim)
  let xb ← rmsnorm ops s.xb s.x g c.dim
  let input ← part xb 0 c.dim
  let w1 ← suffix w.w1 (layer * c.hiddenDim * c.dim)
  let hb ← matmul ops s.hb input w1 c.dim c.hiddenDim
  let w3 ← suffix w.w3 (layer * c.hiddenDim * c.dim)
  let hb2 ← matmul ops s.hb2 input w3 c.dim c.hiddenDim
  let hb ← gate ops hb hb2 c.hiddenDim
  let hidden ← part hb 0 c.hiddenDim
  let w2 ← suffix w.w2 (layer * c.dim * c.hiddenDim)
  let xb ← matmul ops xb hidden w2 c.hiddenDim c.dim
  let x ← addTo ops s.x xb c.dim
  some { s with xb := xb, hb := hb, hb2 := hb2, x := x }

def layerStep (c : Config) (w : Weights F) (d : Shape) (pos : Nat) (s : RunState F)
    (layer : Nat) : Option (RunState F) := do
  let s ← projections ops c w d pos s layer
  let s ← (List.range c.nHeads).foldlM (attendHead ops c d layer pos) s
  let s ← attended ops c w s layer
  feedForward ops c w s layer

def forward (c : Config) (w : Weights F) (s : RunState F) (token pos : Nat) :
    Option (RunState F) := do
  let kvDim ← c.kvDim
  let headSize ← c.headSize
  let kvMul ← quotient c.nHeads c.nKvHeads
  let d : Shape := ⟨kvDim, headSize, kvMul⟩
  let row ← part w.tokenEmbedding (token * c.dim) (token * c.dim + c.dim)
  let x ← copyInto s.x c.dim row
  let s ← (List.range c.nLayers).foldlM (layerStep ops c w d pos) { s with x := x }
  let x ← rmsnorm ops s.x s.x w.rmsFinal c.dim
  let input ← part x 0 c.dim
  let logits ← matmul ops s.logits input w.tokenEmbedding c.dim c.vocabSize
  some { s with x := x, logits := logits }

end FiveAM.Llm.Forward
