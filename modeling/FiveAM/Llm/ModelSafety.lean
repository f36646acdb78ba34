/- GID: FiveAM/Llm/ModelSafety
   source: kernel/src/llm.rs
   digest: Which model files are refused or run without a panic, whatever the floats come to. -/

import FiveAM.Llm.Forward

set_option autoImplicit false
set_option relaxedAutoImplicit false

namespace FiveAM.Llm.ModelSafety

open FiveAM.Lib.Checked FiveAM.Lib.Loops FiveAM.Llm.ModelFile FiveAM.Llm.Forward

variable {F : Type} {ops : Floats F}

section Vectors

variable {xs ys : List F} {i n d : Nat}

theorem get_some (xs : List F) (i : Nat) (inside : i < xs.length) : ∃ v, xs[i]? = some v :=
  ⟨xs[i], List.getElem?_eq_getElem inside⟩

theorem put_some (xs : List F) (i : Nat) (v : F) (inside : i < xs.length) :
    put xs i v = some (xs.set i v) ∧ (xs.set i v).length = xs.length :=
  ⟨if_pos inside, List.length_set⟩

theorem suffix_some (xs : List F) (i : Nat) (inside : i ≤ xs.length) :
    ∃ ys, suffix xs i = some ys ∧ ys.length = xs.length - i :=
  ⟨xs.drop i, if_pos inside, List.length_drop⟩

theorem part_some (xs : List F) {a b : Nat} (order : a ≤ b) (inside : b ≤ xs.length) :
    ∃ ys, part xs a b = some ys ∧ ys.length = b - a := by
  refine ⟨_, part_eq order inside, ?_⟩
  rw [List.length_drop, List.length_take, Nat.min_eq_left inside]

theorem putBack_length (inside : i + ys.length ≤ xs.length) :
    (putBack xs i ys).length = xs.length := by
  rw [putBack, List.length_append, List.length_append, List.length_take, List.length_drop]
  omega

theorem writes_some {out : List F} {f : List F → Nat → Option (List F)}
    (steps : ∀ i, i < n → ∀ ys, ys.length = out.length →
      ∃ ys', f ys i = some ys' ∧ ys'.length = ys.length) :
    ∃ ys, (List.range n).foldlM f out = some ys ∧ ys.length = out.length := by
  refine foldlM_invariant (P := fun ys : List F => ys.length = out.length)
    (fun i inside ys kept => ?_) rfl
  obtain ⟨ys', run, length⟩ := steps i (List.mem_range.mp inside) ys kept
  exact ⟨ys', run, length.trans kept⟩

theorem dot_some (ops : Floats F) (xs ys : List F) (offset n : Nat) (start : F)
    (left : n ≤ xs.length) (right : offset + n ≤ ys.length) :
    ∃ sum, dot ops xs ys offset n start = some sum := by
  have loop : ∃ sum, dot ops xs ys offset n start = some sum ∧ True := by
    refine foldlM_invariant (P := fun _ => True) (fun i inside sum _ => ?_) trivial
    have bound := List.mem_range.mp inside
    obtain ⟨u, here⟩ := get_some xs i (by omega)
    obtain ⟨v, there⟩ := get_some ys (offset + i) (by omega)
    exact ⟨_, bind_of here (bind_of there rfl), trivial⟩
  obtain ⟨sum, run, -⟩ := loop
  exact ⟨sum, run⟩

theorem matmul_some (ops : Floats F) (out x w : List F) (room : d ≤ out.length)
    (input : n ≤ x.length) (rows : d * n ≤ w.length) :
    ∃ ys, matmul ops out x w n d = some ys ∧ ys.length = out.length := by
  refine writes_some fun i below ys kept => ?_
  have row_in : i * n + n ≤ w.length := by
    have next := Nat.mul_le_mul_right n below
    rw [Nat.succ_mul] at next
    omega
  obtain ⟨row, cut, length⟩ := part_some w (Nat.le_add_right (i * n) n) row_in
  obtain ⟨sum, summed⟩ := dot_some ops row x 0 n ops.zero (by omega) (by omega)
  obtain ⟨written, length'⟩ := put_some ys i sum (by omega)
  exact ⟨_, bind_of cut (bind_of summed written), length'⟩

theorem rmsnorm_some (ops : Floats F) (out x w : List F) (room : n ≤ out.length)
    (input : n ≤ x.length) (scales : n ≤ w.length) :
    ∃ ys, rmsnorm ops out x w n = some ys ∧ ys.length = out.length := by
  obtain ⟨sum, summed⟩ := dot_some ops x x 0 n ops.zero input (by omega)
  have loop : ∀ scale, ∃ ys, (List.range n).foldlM (fun out i => do
      let g ← w[i]?
      let v ← x[i]?
      put out i (ops.mul g (ops.mul v scale))) out = some ys ∧ ys.length = out.length := by
    refine fun scale => writes_some fun i below ys kept => ?_
    obtain ⟨g, here⟩ := get_some w i (by omega)
    obtain ⟨v, there⟩ := get_some x i (by omega)
    obtain ⟨written, length⟩ := put_some ys i (ops.mul g (ops.mul v scale)) (by omega)
    exact ⟨_, bind_of here (bind_of there written), length⟩
  obtain ⟨ys, run, length⟩ := loop (ops.div ops.one
    (ops.sqrt (ops.add (ops.div sum (ops.ofNat n)) ops.epsilon)))
  exact ⟨ys, bind_of summed run, length⟩

theorem softmax_some (ops : Floats F) (x : List F) (nonempty : 0 < x.length) :
    ∃ ys, softmax ops x = some ys ∧ ys.length = x.length := by
  obtain ⟨first, here⟩ := get_some x 0 nonempty
  refine ⟨_, bind_of here rfl, ?_⟩
  rw [List.length_map, List.length_map]

theorem addTo_some (ops : Floats F) (out x : List F) (room : n ≤ out.length)
    (added : n ≤ x.length) :
    ∃ ys, addTo ops out x n = some ys ∧ ys.length = out.length := by
  refine writes_some fun i below ys kept => ?_
  obtain ⟨u, here⟩ := get_some ys i (by omega)
  obtain ⟨v, there⟩ := get_some x i (by omega)
  obtain ⟨written, length⟩ := put_some ys i (ops.add u v) (by omega)
  exact ⟨_, bind_of here (bind_of there written), length⟩

theorem gate_some (ops : Floats F) (out x : List F) (room : n ≤ out.length)
    (gates : n ≤ x.length) :
    ∃ ys, gate ops out x n = some ys ∧ ys.length = out.length := by
  refine writes_some fun i below ys kept => ?_
  obtain ⟨u, here⟩ := get_some ys i (by omega)
  obtain ⟨v, there⟩ := get_some x i (by omega)
  obtain ⟨written, length⟩ := put_some ys i (ops.mul (ops.mul u
    (ops.div ops.one (ops.add ops.one (ops.exp (ops.neg u))))) v) (by omega)
  exact ⟨_, bind_of here (bind_of there written), length⟩

theorem copyInto_some (out x : List F) (room : n ≤ out.length) (row : x.length = n) :
    ∃ ys, copyInto out n x = some ys ∧ ys.length = out.length := by
  obtain ⟨target, cut, length⟩ := part_some out (Nat.zero_le n) room
  refine ⟨putBack out 0 x, ?_, putBack_length (by omega)⟩
  rw [copyInto, cut, Option.bind_some, if_pos (by omega)]

theorem rotate_some {weights : Weights F} {place base : Nat} (cos : place < weights.freqCos.length)
    (sin : place < weights.freqSin.length) (pair : base + 1 < xs.length) :
    ∃ ys, rotate ops weights xs place base = some ys ∧ ys.length = xs.length := by
  obtain ⟨u, cosine⟩ := get_some weights.freqCos place cos
  obtain ⟨v, sine⟩ := get_some weights.freqSin place sin
  obtain ⟨a, first⟩ := get_some xs base (by omega)
  obtain ⟨b, second⟩ := get_some xs (base + 1) pair
  obtain ⟨written, length⟩ := put_some xs base (ops.sub (ops.mul a u) (ops.mul b v)) (by omega)
  obtain ⟨written', length'⟩ := put_some (xs.set base (ops.sub (ops.mul a u) (ops.mul b v)))
    (base + 1) (ops.add (ops.mul a v) (ops.mul b u)) (by omega)
  exact ⟨_, bind_of cosine (bind_of sine (bind_of first (bind_of second
    (bind_of written written')))), length'.trans length⟩

end Vectors

section Layers

variable {c : Config} {w : Weights F} {d : Shape} {s : RunState F} {layer pos head : Nat}

structure Sized (s : RunState F) : Prop where
  x : s.x.length = maxDim
  xb : s.xb.length = maxDim
  xb2 : s.xb2.length = maxDim
  hb : s.hb.length = maxHidden
  hb2 : s.hb2.length = maxHidden
  q : s.q.length = maxDim
  att : s.att.length = maxHeads * maxSeq
  logits : s.logits.length = maxVocab
  keyCache : s.keyCache.length = maxLayers * maxSeq * maxDim
  valueCache : s.valueCache.length = maxLayers * maxSeq * maxDim

structure Small (c : Config) : Prop where
  dim : c.dim ≤ maxDim
  hidden : c.hiddenDim ≤ maxHidden
  layers : c.nLayers ≤ maxLayers
  seq : c.seqLen ≤ maxSeq
  vocab : c.vocabSize ≤ maxVocab
  heads : c.nHeads ≤ maxHeads

/-- The heads share out the dimensions, and the heads of the keys some of them. -/
structure Shared (c : Config) (d : Shape) : Prop where
  heads : c.nHeads * d.headSize = c.dim
  keys : c.nKvHeads * d.headSize = d.kvDim
  fewer : c.nKvHeads ≤ c.nHeads
  groups : 0 < d.kvMul

theorem Shared.kvDim_le (shared : Shared c d) : d.kvDim ≤ c.dim := by
  rw [← shared.keys, ← shared.heads]
  exact Nat.mul_le_mul_right _ shared.fewer

theorem row_in_cache (small : Small c) (shared : Shared c d) (layer_in : layer < c.nLayers)
    {t : Nat} (t_in : t < c.seqLen) {extra : Nat} (within : extra ≤ c.dim) :
    layer * c.seqLen * d.kvDim + t * d.kvDim + extra ≤ maxLayers * maxSeq * maxDim := by
  have rows : layer * c.seqLen + t + 1 ≤ maxLayers * maxSeq := by
    have next : (layer + 1) * c.seqLen ≤ c.nLayers * c.seqLen := Nat.mul_le_mul_right _ layer_in
    have all := Nat.mul_le_mul small.layers small.seq
    rw [Nat.succ_mul] at next
    omega
  have dim := small.dim
  calc layer * c.seqLen * d.kvDim + t * d.kvDim + extra
      ≤ (layer * c.seqLen + t) * d.kvDim + c.dim := by
        rw [Nat.add_mul]
        omega
    _ ≤ (layer * c.seqLen + t) * c.dim + c.dim :=
        Nat.add_le_add_right (Nat.mul_le_mul_left _ shared.kvDim_le) _
    _ = (layer * c.seqLen + t + 1) * c.dim := (Nat.succ_mul _ _).symm
    _ ≤ maxLayers * maxSeq * maxDim := Nat.mul_le_mul rows dim

theorem head_in (shared : Shared c d) (below : head < c.nHeads) :
    head * d.headSize + d.headSize ≤ c.dim := by
  rw [← shared.heads, ← Nat.succ_mul]
  exact Nat.mul_le_mul_right _ below

theorem key_head_in (shared : Shared c d) (below : head < c.nKvHeads) :
    head * d.headSize + d.headSize ≤ d.kvDim := by
  rw [← shared.keys, ← Nat.succ_mul]
  exact Nat.mul_le_mul_right _ below

theorem cachePlace_some (shared : Shared c d) (below : head < c.nHeads) (layer t : Nat) :
    ∃ group, cachePlace c d layer head t =
      some (layer * c.seqLen * d.kvDim + t * d.kvDim + group * d.headSize) ∧
        group * d.headSize + d.headSize ≤ c.dim := by
  refine ⟨head / d.kvMul, ?_, head_in shared ?_⟩
  · rw [cachePlace, quotient, if_neg (Nat.pos_iff_ne_zero.mp shared.groups)]
    rfl
  · exact Nat.lt_of_le_of_lt (Nat.div_le_self _ _) below

theorem angle_in (pos_in : pos < c.seqLen) {i headSize : Nat} (i_in : i < headSize / 2) :
    pos * (headSize / 2) + i < c.seqLen * headSize / 2 := by
  have next : (pos + 1) * (headSize / 2) ≤ c.seqLen * (headSize / 2) :=
    Nat.mul_le_mul_right _ pos_in
  have whole : c.seqLen * (headSize / 2) ≤ c.seqLen * headSize / 2 :=
    Nat.mul_div_le_mul_div_assoc _ _ _
  rw [Nat.succ_mul] at next
  omega

theorem rotateHeads_some (ops : Floats F) {headSize : Nat} (heads offset : Nat) (xs : List F)
    (cos : w.freqCos.length = c.seqLen * headSize / 2)
    (sin : w.freqSin.length = c.seqLen * headSize / 2) (pos_in : pos < c.seqLen)
    (room : ∀ head, head < heads → offset + (head * headSize + headSize) ≤ xs.length) :
    ∃ ys, rotateHeads ops w heads headSize pos offset xs = some ys ∧ ys.length = xs.length := by
  refine writes_some fun head head_in ys kept => writes_some fun i i_in zs kept' => ?_
  have angle := angle_in pos_in i_in
  have pairs := room head head_in
  exact rotate_some (by omega) (by omega) (by omega)

theorem scores_some (ops : Floats F) {keys : List F} (q att : List F) (small : Small c)
    (shared : Shared c d) (layer_in : layer < c.nLayers) (pos_in : pos < c.seqLen)
    (below : head < c.nHeads) (cache : keys.length = maxLayers * maxSeq * maxDim)
    (query : q.length = d.headSize) (room : att.length = pos + 1) :
    ∃ ys, scores ops c d layer head pos keys q att = some ys ∧ ys.length = att.length := by
  refine writes_some fun t t_in ys kept => ?_
  obtain ⟨group, place, within⟩ := cachePlace_some shared below layer t
  have inside := row_in_cache small shared layer_in (Nat.lt_of_lt_of_le t_in pos_in) within
  obtain ⟨score, summed⟩ := dot_some ops q keys
    (layer * c.seqLen * d.kvDim + t * d.kvDim + group * d.headSize) d.headSize ops.zero
    (by omega) (by omega)
  obtain ⟨written, length⟩ := put_some ys t
    (ops.mul score (ops.div ops.one (ops.sqrt (ops.ofNat d.headSize)))) (by omega)
  exact ⟨_, bind_of place (bind_of summed written), length⟩

theorem mix_some (ops : Floats F) {values : List F} (att out : List F) (small : Small c)
    (shared : Shared c d) (layer_in : layer < c.nLayers) (pos_in : pos < c.seqLen)
    (below : head < c.nHeads) (cache : values.length = maxLayers * maxSeq * maxDim)
    (weights : att.length = pos + 1) (room : out.length = d.headSize) :
    ∃ ys, mix ops c d layer head pos values att out = some ys ∧ ys.length = out.length := by
  refine writes_some fun t t_in ys kept => ?_
  obtain ⟨group, place, within⟩ := cachePlace_some shared below layer t
  have inside := row_in_cache small shared layer_in (Nat.lt_of_lt_of_le t_in pos_in) within
  obtain ⟨weight, weighed⟩ := get_some att t (by omega)
  have loop : ∃ zs, (List.range d.headSize).foldlM (fun out i => do
      let sum ← out[i]?
      let value ← values[layer * c.seqLen * d.kvDim + t * d.kvDim + group * d.headSize + i]?
      put out i (ops.add sum (ops.mul weight value))) ys = some zs ∧ zs.length = ys.length := by
    refine writes_some fun i i_in zs kept' => ?_
    obtain ⟨sum, here⟩ := get_some zs i (by omega)
    obtain ⟨value, there⟩ := get_some values
      (layer * c.seqLen * d.kvDim + t * d.kvDim + group * d.headSize + i) (by omega)
    obtain ⟨written, length⟩ := put_some zs i (ops.add sum (ops.mul weight value)) (by omega)
    exact ⟨_, bind_of here (bind_of there written), length⟩
  obtain ⟨zs, added, length⟩ := loop
  exact ⟨zs, bind_of place (bind_of weighed added), length⟩

theorem attendHead_some (ops : Floats F) (small : Small c) (shared : Shared c d)
    (layer_in : layer < c.nLayers) (pos_in : pos < c.seqLen) (below : head < c.nHeads)
    (sized : Sized s) : ∃ s', attendHead ops c d layer pos s head = some s' ∧ Sized s' := by
  have part_in := Nat.le_trans (head_in shared below) small.dim
  have att_in : head * maxSeq + pos + 1 ≤ maxHeads * maxSeq := by
    have next := Nat.mul_le_mul_right maxSeq (Nat.le_trans (Nat.succ_le_of_lt below) small.heads)
    have seq := small.seq
    rw [Nat.succ_mul] at next
    omega
  obtain ⟨q, cut, q_length⟩ := part_some s.q (Nat.le_add_right (head * d.headSize) d.headSize)
    (by rw [sized.q]; exact part_in)
  obtain ⟨att, cut', att_length⟩ := part_some s.att
    (Nat.le_trans (Nat.le_add_right (head * maxSeq) pos) (Nat.le_add_right _ 1))
    (by rw [sized.att]; exact att_in)
  obtain ⟨scored, score, scored_length⟩ := scores_some ops q att small shared
    layer_in pos_in below sized.keyCache (by omega) (by omega)
  obtain ⟨weights, soft, weights_length⟩ := softmax_some ops scored (by omega)
  obtain ⟨out, cut'', out_length⟩ := part_some s.xb
    (Nat.le_add_right (head * d.headSize) d.headSize) (by rw [sized.xb]; exact part_in)
  obtain ⟨mixed, mixing, mixed_length⟩ := mix_some ops weights
    (out.map fun _ => ops.zero) small shared layer_in pos_in below sized.valueCache
    (by omega) (by rw [List.length_map]; omega)
  rw [List.length_map] at mixed_length
  refine ⟨_, bind_of cut (bind_of cut' (bind_of score (bind_of soft
    (bind_of cut'' (bind_of mixing rfl))))), { sized with att := ?_, xb := ?_ }⟩
  · rw [putBack_length, sized.xb]
    rw [sized.xb]
    omega
  · rw [putBack_length, sized.att]
    rw [sized.att]
    omega

theorem layer_some {tensor : List F} {size : Nat} (layer_in : layer < c.nLayers)
    (length : tensor.length = c.nLayers * size) :
    ∃ ys, suffix tensor (layer * size) = some ys ∧ size ≤ ys.length := by
  have next : (layer + 1) * size ≤ c.nLayers * size := Nat.mul_le_mul_right _ layer_in
  rw [Nat.succ_mul] at next
  obtain ⟨ys, cut, rest⟩ := suffix_some tensor (layer * size) (by omega)
  exact ⟨ys, cut, by omega⟩

theorem matrix_some {tensor : List F} {rows columns : Nat} (layer_in : layer < c.nLayers)
    (length : tensor.length = c.nLayers * rows * columns) :
    ∃ ys, suffix tensor (layer * rows * columns) = some ys ∧ rows * columns ≤ ys.length := by
  rw [Nat.mul_assoc] at length ⊢
  exact layer_some layer_in length

theorem project_some (ops : Floats F) (cache xb : List F) {tensor : List F} {offset : Nat}
    (layer_in : layer < c.nLayers)
    (row_in : offset + d.kvDim ≤ cache.length) (input : c.dim ≤ xb.length)
    (length : tensor.length = c.nLayers * c.dim * d.kvDim) :
    ∃ ys, project ops c d offset layer cache xb tensor = some ys ∧ ys.length = cache.length := by
  obtain ⟨row, cut, row_length⟩ := part_some cache (Nat.le_add_right offset d.kvDim) row_in
  obtain ⟨x, cut', x_length⟩ := part_some xb (Nat.zero_le c.dim) input
  obtain ⟨matrix, cut'', rows⟩ := matrix_some layer_in length
  rw [Nat.mul_comm] at rows
  obtain ⟨out, multiplied, out_length⟩ := matmul_some ops row x matrix
    (d := d.kvDim) (n := c.dim) (by omega) (by omega) rows
  exact ⟨_, bind_of cut (bind_of cut' (bind_of cut'' (bind_of multiplied rfl))),
    putBack_length (by omega)⟩

theorem projections_some (ops : Floats F) (small : Small c) (shared : Shared c d)
    (cut : Cut c d.kvDim d.headSize w) (layer_in : layer < c.nLayers) (pos_in : pos < c.seqLen)
    (sized : Sized s) : ∃ s', projections ops c w d pos s layer = some s' ∧ Sized s' := by
  have dim := small.dim
  have offset_in := row_in_cache small shared layer_in pos_in shared.kvDim_le
  have square : w.wq.length = c.nLayers * c.dim * c.dim := by
    rw [cut.wq, Nat.mul_assoc, shared.heads]
  obtain ⟨g, gains, g_length⟩ := layer_some layer_in cut.rmsAtt
  obtain ⟨xb, norm, xb_length⟩ := rmsnorm_some ops s.xb s.x g
    (n := c.dim) (by rw [sized.xb]; exact dim) (by rw [sized.x]; exact dim) g_length
  rw [sized.xb] at xb_length
  obtain ⟨input, input_cut, input_length⟩ := part_some xb (Nat.zero_le c.dim) (by omega)
  obtain ⟨wq, wq_cut, wq_rows⟩ := matrix_some layer_in square
  obtain ⟨q, q_run, q_length⟩ := matmul_some ops s.q input wq
    (by rw [sized.q]; exact dim) (Nat.le_of_eq input_length.symm) wq_rows
  obtain ⟨keys, keys_run, keys_length⟩ := project_some ops s.keyCache xb
    layer_in (by rw [sized.keyCache]; exact offset_in) (by omega) cut.wk
  obtain ⟨values, values_run, values_length⟩ := project_some ops s.valueCache xb
    layer_in (by rw [sized.valueCache]; exact offset_in) (by omega) cut.wv
  obtain ⟨q', q_turn, q_length'⟩ := rotateHeads_some ops c.nHeads 0 q
    cut.freqCos cut.freqSin pos_in fun head below => by
      rw [Nat.zero_add, q_length, sized.q]
      exact Nat.le_trans (head_in shared below) dim
  obtain ⟨keys', keys_turn, keys_length'⟩ := rotateHeads_some ops c.nKvHeads
    (layer * c.seqLen * d.kvDim + pos * d.kvDim) keys
    cut.freqCos cut.freqSin pos_in fun head below => by
      rw [keys_length, sized.keyCache]
      exact Nat.le_trans (Nat.add_le_add_left (key_head_in shared below) _) offset_in
  exact ⟨_, bind_of gains (bind_of norm (bind_of input_cut (bind_of wq_cut (bind_of q_run
    (bind_of keys_run (bind_of values_run (bind_of q_turn (bind_of keys_turn rfl)))))))),
    { sized with
      xb := xb_length
      q := (q_length'.trans q_length).trans sized.q
      keyCache := (keys_length'.trans keys_length).trans sized.keyCache
      valueCache := values_length.trans sized.valueCache }⟩

theorem attended_some (ops : Floats F) (small : Small c) (shared : Shared c d)
    (cut : Cut c d.kvDim d.headSize w) (layer_in : layer < c.nLayers) (sized : Sized s) :
    ∃ s', attended ops c w s layer = some s' ∧ Sized s' := by
  have dim := small.dim
  have square : w.wo.length = c.nLayers * c.dim * c.dim := by
    rw [cut.wo, Nat.mul_assoc c.nLayers, shared.heads]
  obtain ⟨input, input_cut, input_length⟩ := part_some s.xb (Nat.zero_le c.dim)
    (by rw [sized.xb]; exact dim)
  obtain ⟨wo, wo_cut, wo_rows⟩ := matrix_some layer_in square
  obtain ⟨xb2, run, xb2_length⟩ := matmul_some ops s.xb2 input wo
    (by rw [sized.xb2]; exact dim) (Nat.le_of_eq input_length.symm) wo_rows
  rw [sized.xb2] at xb2_length
  obtain ⟨x, added, x_length⟩ := addTo_some ops s.x xb2 (n := c.dim)
    (by rw [sized.x]; exact dim) (by omega)
  exact ⟨_, bind_of input_cut (bind_of wo_cut (bind_of run (bind_of added rfl))),
    { sized with xb2 := xb2_length, x := x_length.trans sized.x }⟩

theorem feedForward_some (ops : Floats F) {kvDim headSize : Nat} (small : Small c)
    (cut : Cut c kvDim headSize w) (layer_in : layer < c.nLayers) (sized : Sized s) :
    ∃ s', feedForward ops c w s layer = some s' ∧ Sized s' := by
  have dim := small.dim
  have hidden := small.hidden
  obtain ⟨g, gains, g_length⟩ := layer_some layer_in cut.rmsFfn
  obtain ⟨xb, norm, xb_length⟩ := rmsnorm_some ops s.xb s.x g
    (n := c.dim) (by rw [sized.xb]; exact dim) (by rw [sized.x]; exact dim) g_length
  rw [sized.xb] at xb_length
  obtain ⟨input, input_cut, input_length⟩ := part_some xb (Nat.zero_le c.dim) (by omega)
  obtain ⟨w1, w1_cut, w1_rows⟩ := matrix_some layer_in cut.w1
  obtain ⟨hb, hb_run, hb_length⟩ := matmul_some ops s.hb input w1
    (by rw [sized.hb]; exact hidden) (Nat.le_of_eq input_length.symm) w1_rows
  obtain ⟨w3, w3_cut, w3_rows⟩ := matrix_some layer_in cut.w3
  obtain ⟨hb2, hb2_run, hb2_length⟩ := matmul_some ops s.hb2 input w3
    (by rw [sized.hb2]; exact hidden) (Nat.le_of_eq input_length.symm) w3_rows
  rw [sized.hb] at hb_length
  rw [sized.hb2] at hb2_length
  obtain ⟨gated, gates, gated_length⟩ := gate_some ops hb hb2
    (n := c.hiddenDim) (by omega) (by omega)
  obtain ⟨inner, inner_cut, inner_length⟩ := part_some gated (Nat.zero_le c.hiddenDim) (by omega)
  obtain ⟨w2, w2_cut, w2_rows⟩ := matrix_some layer_in cut.w2
  obtain ⟨xb', xb_run, xb_length'⟩ := matmul_some ops xb inner w2
    (by omega) (Nat.le_of_eq inner_length.symm) w2_rows
  obtain ⟨x, added, x_length⟩ := addTo_some ops s.x xb' (n := c.dim)
    (by rw [sized.x]; exact dim) (by omega)
  exact ⟨_, bind_of gains (bind_of norm (bind_of input_cut (bind_of w1_cut (bind_of hb_run
    (bind_of w3_cut (bind_of hb2_run (bind_of gates (bind_of inner_cut (bind_of w2_cut
    (bind_of xb_run (bind_of added rfl))))))))))),
    { sized with
      xb := xb_length'.trans xb_length
      hb := gated_length.trans hb_length
      hb2 := hb2_length
      x := x_length.trans sized.x }⟩

theorem layerStep_some (ops : Floats F) (small : Small c) (shared : Shared c d)
    (cut : Cut c d.kvDim d.headSize w) (layer_in : layer < c.nLayers) (pos_in : pos < c.seqLen)
    (sized : Sized s) : ∃ s', layerStep ops c w d pos s layer = some s' ∧ Sized s' := by
  obtain ⟨s1, projected, sized1⟩ := projections_some ops small shared cut layer_in pos_in sized
  obtain ⟨s2, looked, sized2⟩ : ∃ s2, (List.range c.nHeads).foldlM
      (attendHead ops c d layer pos) s1 = some s2 ∧ Sized s2 :=
    foldlM_invariant (fun head below s sized =>
      attendHead_some ops small shared layer_in pos_in (List.mem_range.mp below) sized) sized1
  obtain ⟨s3, added, sized3⟩ := attended_some ops small shared cut layer_in sized2
  obtain ⟨s4, fed, sized4⟩ := feedForward_some ops small cut layer_in sized3
  exact ⟨s4, bind_of projected (bind_of looked (bind_of added fed)), sized4⟩

theorem groups_of_attendHead {s' : RunState F}
    (run : attendHead ops c d layer pos s head = some s') : d.kvMul ≠ 0 := by
  obtain ⟨q, -, first⟩ := Option.bind_eq_some_iff.mp run
  obtain ⟨att, -, second⟩ := Option.bind_eq_some_iff.mp first
  obtain ⟨scored, score, -⟩ := Option.bind_eq_some_iff.mp second
  obtain ⟨old, new, step⟩ := foldlM_steps score 0 (List.mem_range.mpr (Nat.succ_pos _))
  obtain ⟨place, placed, -⟩ := Option.bind_eq_some_iff.mp step
  intro zero
  rw [cachePlace, quotient, if_pos zero] at placed
  exact Option.some_ne_none _ placed.symm

theorem matmul_rows {out x tensor ys : List F} {columns rows : Nat}
    (run : matmul ops out x tensor columns rows = some ys) : rows * columns ≤ tensor.length := by
  rcases Nat.eq_zero_or_pos rows with rfl | some_row
  · rw [Nat.zero_mul]
    exact Nat.zero_le _
  · obtain ⟨old, new, step⟩ := foldlM_steps run (rows - 1) (List.mem_range.mpr (by omega))
    obtain ⟨row, cut, -⟩ := Option.bind_eq_some_iff.mp step
    have inside := (part_length cut).2.2
    rwa [← Nat.succ_mul, Nat.succ_eq_add_one, Nat.sub_add_cancel some_row] at inside

theorem suffix_length {tensor ys : List F} {start : Nat} (run : suffix tensor start = some ys) :
    start + ys.length = tensor.length := by
  rw [suffix] at run
  split_ifs at run with inside
  obtain rfl := Option.some.inj run
  rw [List.length_drop]
  omega

theorem square_of_projections {s' : RunState F}
    (run : projections ops c w d pos s layer = some s') :
    layer * c.dim * c.dim + c.dim * c.dim ≤ w.wq.length := by
  obtain ⟨g, -, first⟩ := Option.bind_eq_some_iff.mp run
  obtain ⟨xb, -, second⟩ := Option.bind_eq_some_iff.mp first
  obtain ⟨input, -, third⟩ := Option.bind_eq_some_iff.mp second
  obtain ⟨wq, cut, fourth⟩ := Option.bind_eq_some_iff.mp third
  obtain ⟨q, multiplied, -⟩ := Option.bind_eq_some_iff.mp fourth
  rw [← suffix_length cut]
  exact Nat.add_le_add_left (matmul_rows multiplied) _

end Layers

section Files

variable {c : Config} {w : Weights F} {s : RunState F} {token pos : Nat} {bytes : List UInt8}

/-- What one pass needs of a header beyond its weights. -/
structure Runnable (c : Config) : Prop where
  keys : c.nKvHeads ≠ 0
  shares : c.nLayers ≠ 0 → c.nKvHeads ≤ c.nHeads ∧ c.nHeads ∣ c.dim

def kvWidth (c : Config) : Nat := c.dim * c.nKvHeads / c.nHeads

def shape (c : Config) : Shape :=
  { kvDim := kvWidth c
    headSize := c.dim / c.nHeads
    kvMul := c.nHeads / c.nKvHeads }

theorem shared_of_runnable (runnable : Runnable c) (layers : c.nLayers ≠ 0) :
    Shared c (shape c) := by
  obtain ⟨fewer, shares⟩ := runnable.shares layers
  refine ⟨Nat.mul_div_cancel' shares, ?_, fewer,
    Nat.div_pos fewer (Nat.pos_of_ne_zero runnable.keys)⟩
  rw [shape, kvWidth, Nat.mul_comm, Nat.div_mul_right_comm shares]

theorem forward_eq {floats : Nat} (whole : Whole c floats) (keys : c.nKvHeads ≠ 0) :
    forward ops c w s token pos = (do
      let row ← part w.tokenEmbedding (token * c.dim) (token * c.dim + c.dim)
      let x ← copyInto s.x c.dim row
      let s ← (List.range c.nLayers).foldlM (layerStep ops c w (shape c) pos) { s with x := x }
      let x ← rmsnorm ops s.x s.x w.rmsFinal c.dim
      let input ← part x 0 c.dim
      let logits ← matmul ops s.logits input w.tokenEmbedding c.dim c.vocabSize
      some { s with x := x, logits := logits }) := by
  have width : c.kvDim = some (kvWidth c) := by
    rw [Config.kvDim, fit_eq whole.keys, Option.bind_some, quotient, if_neg whole.heads, kvWidth]
  have head : c.headSize = some (c.dim / c.nHeads) := by
    rw [Config.headSize, quotient, if_neg whole.heads]
  rw [forward, width, head, quotient, if_neg keys]
  rfl

theorem forward_some (ops : Floats F) {floats : Nat} (small : Small c) (whole : Whole c floats)
    (cut : Cut c (kvWidth c) (c.dim / c.nHeads) w) (runnable : Runnable c)
    (known : token < c.vocabSize) (pos_in : pos < c.seqLen)
    (sized : Sized s) : ∃ s', forward ops c w s token pos = some s' ∧ Sized s' := by
  have dim := small.dim
  have row_in : token * c.dim + c.dim ≤ w.tokenEmbedding.length := by
    rw [cut.tokenEmbedding, ← Nat.succ_mul]
    exact Nat.mul_le_mul_right _ known
  obtain ⟨row, row_cut, row_length⟩ := part_some w.tokenEmbedding
    (Nat.le_add_right (token * c.dim) c.dim) row_in
  obtain ⟨x, copied, x_length⟩ := copyInto_some s.x row (n := c.dim)
    (by rw [sized.x]; exact dim) (by omega)
  obtain ⟨s1, layers, sized1⟩ : ∃ s1, (List.range c.nLayers).foldlM
      (layerStep ops c w (shape c) pos) { s with x := x } = some s1 ∧ Sized s1 := by
    refine foldlM_invariant (fun layer below s sized => ?_)
      { sized with x := x_length.trans sized.x }
    have layer_in := List.mem_range.mp below
    exact layerStep_some ops small (shared_of_runnable runnable (by omega)) cut layer_in
      pos_in sized
  obtain ⟨x', norm, x_length'⟩ := rmsnorm_some ops s1.x s1.x w.rmsFinal
    (n := c.dim) (by rw [sized1.x]; exact dim) (by rw [sized1.x]; exact dim)
    (Nat.le_of_eq cut.rmsFinal.symm)
  rw [sized1.x] at x_length'
  obtain ⟨input, input_cut, input_length⟩ := part_some x' (Nat.zero_le c.dim) (by omega)
  obtain ⟨logits, classified, logits_length⟩ := matmul_some ops s1.logits input
    w.tokenEmbedding (by rw [sized1.logits]; exact small.vocab) (Nat.le_of_eq input_length.symm)
    (Nat.le_of_eq cut.tokenEmbedding.symm)
  rw [forward_eq whole runnable.keys]
  exact ⟨_, bind_of row_cut (bind_of copied (bind_of layers (bind_of norm (bind_of input_cut
    (bind_of classified rfl))))),
    { sized1 with
      x := x_length'
      logits := logits_length.trans sized1.logits }⟩

theorem runnable_of_forward {floats : Nat} {s' : RunState F} (whole : Whole c floats)
    (cut : Cut c (kvWidth c) (c.dim / c.nHeads) w)
    (run : forward ops c w s token pos = some s') : Runnable c := by
  have keys : c.nKvHeads ≠ 0 := by
    intro none
    obtain ⟨width, -, first⟩ := Option.bind_eq_some_iff.mp run
    obtain ⟨head, -, second⟩ := Option.bind_eq_some_iff.mp first
    obtain ⟨groups, divided, -⟩ := Option.bind_eq_some_iff.mp second
    rw [quotient, if_pos none] at divided
    exact Option.some_ne_none _ divided.symm
  refine ⟨keys, fun layers => ?_⟩
  rw [forward_eq whole keys] at run
  obtain ⟨row, -, first⟩ := Option.bind_eq_some_iff.mp run
  obtain ⟨x, -, second⟩ := Option.bind_eq_some_iff.mp first
  obtain ⟨s1, loop, -⟩ := Option.bind_eq_some_iff.mp second
  obtain ⟨old, new, step⟩ := foldlM_steps loop (c.nLayers - 1) (List.mem_range.mpr (by omega))
  obtain ⟨s2, projected, third⟩ := Option.bind_eq_some_iff.mp step
  obtain ⟨s3, looked, -⟩ := Option.bind_eq_some_iff.mp third
  constructor
  · obtain ⟨s4, s5, attended⟩ := foldlM_steps looked 0
      (List.mem_range.mpr (Nat.pos_of_ne_zero whole.heads))
    exact Nat.le_of_not_lt fun more =>
      groups_of_attendHead attended (Nat.div_eq_of_lt more)
  · have square := square_of_projections projected
    have last : (c.nLayers - 1) * c.dim * c.dim + c.dim * c.dim = c.nLayers * c.dim * c.dim := by
      rw [Nat.mul_assoc, ← Nat.succ_mul, Nat.succ_eq_add_one,
        Nat.sub_add_cancel (Nat.pos_of_ne_zero layers), Nat.mul_assoc]
    rw [last, cut.wq, Nat.mul_assoc (c.nLayers * c.dim)] at square
    rcases Nat.eq_zero_or_pos c.dim with empty | some_dim
    · rw [empty]
      exact Nat.dvd_zero _
    · have positive := Nat.mul_pos (Nat.pos_of_ne_zero layers) some_dim
      have covered := Nat.le_of_mul_le_mul_left square positive
      exact ⟨_, Nat.le_antisymm covered (Nat.mul_div_le _ _)⟩

/-- Refused, or run without a panic at any token of the vocabulary and any position. -/
def SafeToRun (ops : Floats F) (bytes : List UInt8) : Prop :=
  ∃ answer, parseModel ops bytes = some answer ∧ ∀ c w, answer = some (c, w) →
    ∀ s, Sized s → ∀ token, token < c.vocabSize → ∀ pos, pos < c.seqLen →
      ∃ s', forward ops c w s token pos = some s' ∧ Sized s'

/-- A header that is refused, or that describes weights which are there and a network whose
heads share out its dimensions. -/
def Sound (bytes : List UInt8) : Prop :=
  28 ≤ bytes.length → ∀ c, readHeader bytes = some c → c.tooLarge = false →
    Whole c ((bytes.length - 28) / 4) ∧ (0 < c.vocabSize → 0 < c.seqLen → Runnable c)

theorem small_of_tooLarge (small : c.tooLarge = false) : Small c := by
  have low := of_decide_eq_false small
  simp only [not_or, Nat.not_lt] at low
  obtain ⟨dim, hidden, layers, seq, vocab, heads⟩ := low
  exact ⟨dim, hidden, layers, seq, vocab, heads⟩

def freshState (ops : Floats F) : RunState F :=
  { x := List.replicate maxDim ops.zero
    xb := List.replicate maxDim ops.zero
    xb2 := List.replicate maxDim ops.zero
    hb := List.replicate maxHidden ops.zero
    hb2 := List.replicate maxHidden ops.zero
    q := List.replicate maxDim ops.zero
    att := List.replicate (maxHeads * maxSeq) ops.zero
    logits := List.replicate maxVocab ops.zero
    keyCache := List.replicate (maxLayers * maxSeq * maxDim) ops.zero
    valueCache := List.replicate (maxLayers * maxSeq * maxDim) ops.zero }

theorem freshState_sized (ops : Floats F) : Sized (freshState ops) := by
  constructor <;> exact List.length_replicate

/-- A model file is refused or safe exactly when its header is sound. -/
theorem safe_iff_sound (ops : Floats F) (bytes : List UInt8) :
    SafeToRun ops bytes ↔ Sound bytes := by
  constructor
  · rintro ⟨answer, parsed, safe⟩ long c header small
    obtain ⟨whole, w, rfl, cut⟩ := whole_of_parse (Nat.not_lt.mpr long) header small parsed
    refine ⟨whole, fun vocab seq => ?_⟩
    obtain ⟨s', run, -⟩ := safe c w rfl _ (freshState_sized ops) 0 vocab 0 seq
    exact runnable_of_forward whole cut run
  · intro sound
    rcases Nat.lt_or_ge bytes.length 28 with short | long
    · exact ⟨none, if_pos short, fun c w other => absurd other.symm (Option.some_ne_none _)⟩
    obtain ⟨c, header⟩ := readHeader_some (Nat.not_lt.mpr long)
    rcases Bool.eq_false_or_eq_true c.tooLarge with large | small
    · refine ⟨none, ?_, fun c w other => absurd other.symm (Option.some_ne_none _)⟩
      rw [parseModel, if_neg (Nat.not_lt.mpr long), header]
      exact if_pos large
    · obtain ⟨whole, runnable⟩ := sound long c header small
      obtain ⟨w, parsed, cut⟩ := parseModel_whole ops (Nat.not_lt.mpr long) header small
        whole
      refine ⟨_, parsed, fun c' w' same s sized token known pos pos_in => ?_⟩
      obtain ⟨rfl, rfl⟩ := Prod.mk.inj (Option.some.inj same)
      have runnable' := runnable (Nat.zero_lt_of_lt known) (Nat.zero_lt_of_lt pos_in)
      exact forward_some ops (small_of_tooLarge small) whole cut runnable' known pos_in sized

/-- No operation tells one number from another. -/
def pointFloats : Floats Unit :=
  { ofBits := fun _ => (), ofNat := fun _ => (), zero := (), one := (), epsilon := ()
    add := fun _ _ => (), sub := fun _ _ => (), mul := fun _ _ => (), div := fun _ _ => ()
    neg := fun _ => (), sqrt := fun _ => (), exp := fun _ => (), gt := fun _ _ => false }

def noHeads : List UInt8 := List.replicate 28 0

/-- One head, one token and one position, and no head for the keys. -/
def noKeyHeads : List UInt8 :=
  [0, 0, 0, 0, 0, 0, 0, 0, 0, 0, 0, 0, 1, 0, 0, 0, 0, 0, 0, 0, 1, 0, 0, 0, 1, 0, 0, 0]

/-- One file is divided by zero when it is parsed, the other when it is run. -/
theorem headless_unsafe : ¬SafeToRun pointFloats noHeads ∧ ¬SafeToRun pointFloats noKeyHeads := by
  constructor
  · rintro ⟨answer, parsed, -⟩
    have faults : parseModel pointFloats noHeads = none := by decide
    rw [faults] at parsed
    exact Option.some_ne_none _ parsed.symm
  · rintro ⟨answer, parsed, safe⟩
    have accepted : parseModel pointFloats noKeyHeads =
        some (some (⟨0, 0, 0, 1, 0, 1, 1⟩,
          ⟨[], [], [], [], [], [], [], [], [], [], [], [], []⟩)) := by
      rfl
    rw [accepted] at parsed
    obtain ⟨s', run, -⟩ := safe _ _ (Option.some.inj parsed).symm _ (freshState_sized pointFloats)
      0 Nat.one_pos 0 Nat.one_pos
    exact Option.some_ne_none _ run.symm

end Files

end FiveAM.Llm.ModelSafety
