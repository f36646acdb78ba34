/- GID: FiveAM/Llm/Leftovers
   source: kernel/src/llm.rs
   digest: A pass through the network reads nothing that an earlier generation left behind. -/

import FiveAM.Lib.Agreement
import FiveAM.Llm.ModelSafety

set_option autoImplicit false
set_option relaxedAutoImplicit false

namespace FiveAM.Llm.Leftovers

open FiveAM.Lib.Agreement FiveAM.Lib.Checked FiveAM.Lib.Loops
open FiveAM.Llm.ModelFile FiveAM.Llm.Forward FiveAM.Llm.ModelSafety

section Vectors

variable {F : Type} {ops : Floats F} {p q : Nat → Prop}

theorem put_both {xs ys xs' ys' : List F} {i : Nat} {v : F} (agree : SameOn p xs ys)
    (run : put xs i v = some xs') (run' : put ys i v = some ys') :
    SameOn (fun j => p j ∨ j = i) xs' ys' := by
  unfold put at run run'
  split_ifs at run run'
  obtain rfl := Option.some.inj run
  obtain rfl := Option.some.inj run'
  exact agree.set i v

theorem put_kept {xs ys xs' ys' : List F} {i : Nat} {v : F} (agree : SameOn p xs ys)
    (run : put xs i v = some xs') (run' : put ys i v = some ys') : SameOn p xs' ys' :=
  (put_both agree run run').mono fun _ => Or.inl

theorem putBack_get {xs slice : List F} {start : Nat} (inside : start + slice.length ≤ xs.length)
    (j : Nat) : (putBack xs start slice)[j]? =
      if start ≤ j ∧ j < start + slice.length then slice[j - start]? else xs[j]? := by
  have front : (xs.take start).length = start := by
    rw [List.length_take, Nat.min_eq_left (by omega)]
  unfold putBack
  by_cases before : j < start
  · rw [if_neg (by omega), List.append_assoc, List.getElem?_append_left (by omega),
      List.getElem?_take, if_pos before]
  · by_cases within : j < start + slice.length
    · rw [if_pos ⟨by omega, within⟩, List.append_assoc, List.getElem?_append_right (by omega),
        front, List.getElem?_append_left (by omega)]
    · rw [if_neg (by omega), List.getElem?_append_right (by rw [List.length_append]; omega),
        List.getElem?_drop, List.length_append, front]
      congr 1
      omega

theorem putBack_both {xs ys slice : List F} {start : Nat} (agree : SameOn p xs ys)
    (inside : start + slice.length ≤ xs.length) :
    SameOn (fun j => p j ∨ start ≤ j ∧ j < start + slice.length) (putBack xs start slice)
      (putBack ys start slice) := by
  have inside' := agree.length ▸ inside
  refine ⟨?_, fun j here => ?_⟩
  · rw [putBack_length inside, putBack_length inside', agree.length]
  · rw [putBack_get inside, putBack_get inside']
    split_ifs with within
    · rfl
    · exact agree.same j (here.resolve_right within)

theorem dot_both {a a' b b' : List F} {offset n : Nat} {start : F} (left : SameOn p a a')
    (first : ∀ i < n, p i) (right : SameOn q b b')
    (inside : ∀ i, offset ≤ i → i < offset + n → q i) :
    dot ops a b offset n start = dot ops a' b' offset n start := by
  unfold dot
  refine range_congr (fun i below sum => ?_) start
  rw [left.same i (first i below), right.same _ (inside _ (Nat.le_add_right _ _)
    (Nat.add_lt_add_left below _))]

theorem matmul_both {out out' x x' w ys ys' : List F} {n d : Nat} (agree : SameOn p out out')
    (input : SameOn (· < n) x x') (run : matmul ops out x w n d = some ys)
    (run' : matmul ops out' x' w n d = some ys') : SameOn (fun j => p j ∨ j < d) ys ys' := by
  refine range_related (R := fun i xs ys => SameOn (fun j => p j ∨ j < i) xs ys)
    (fun i below s t s' t' related turn turn' => ?_)
    (agree.mono fun j here => here.resolve_right (Nat.not_lt_zero j)) run run'
  obtain ⟨row, cut, rest⟩ := Option.bind_eq_some_iff.mp turn
  obtain ⟨row', cut', rest'⟩ := Option.bind_eq_some_iff.mp turn'
  obtain ⟨sum, total, written⟩ := Option.bind_eq_some_iff.mp rest
  obtain ⟨sum', total', written'⟩ := Option.bind_eq_some_iff.mp rest'
  obtain rfl := Option.some.inj (cut.symm.trans cut')
  rw [dot_both (SameOn.refl _ row) (fun j _ => trivial) input
    (fun j _ inside => by simpa using inside)] at total
  obtain rfl := Option.some.inj (total.symm.trans total')
  refine (put_both related written written').mono fun j here => ?_
  rcases here with kept | before
  · exact Or.inl (Or.inl kept)
  · exact (Nat.lt_succ_iff_lt_or_eq.mp before).imp Or.inr id

theorem matmul_length {out x w ys : List F} {n d : Nat} (run : matmul ops out x w n d = some ys) :
    ys.length = out.length := by
  refine range_related (R := fun _ xs _ => xs.length = out.length)
    (fun i below s t s' t' related turn _ => ?_) rfl run run
  obtain ⟨row, -, rest⟩ := Option.bind_eq_some_iff.mp turn
  obtain ⟨sum, -, written⟩ := Option.bind_eq_some_iff.mp rest
  unfold put at written
  split_ifs at written
  rw [← Option.some.inj written, List.length_set, related]

theorem rmsnorm_both {out out' x x' weight ys ys' : List F} {size : Nat}
    (agree : SameOn p out out') (input : SameOn (· < size) x x')
    (run : rmsnorm ops out x weight size = some ys)
    (run' : rmsnorm ops out' x' weight size = some ys') :
    SameOn (fun j => p j ∨ j < size) ys ys' := by
  obtain ⟨sum, total, loop⟩ := Option.bind_eq_some_iff.mp run
  obtain ⟨sum', total', loop'⟩ := Option.bind_eq_some_iff.mp run'
  rw [dot_both input (fun j below => below) input (fun j _ below => by simpa using below)] at total
  obtain rfl := Option.some.inj (total.symm.trans total')
  refine range_related (R := fun i xs ys => SameOn (fun j => p j ∨ j < i) xs ys)
    (fun i below s t s' t' related turn turn' => ?_)
    (agree.mono fun j here => here.resolve_right (Nat.not_lt_zero j)) loop loop'
  obtain ⟨g, gain, rest⟩ := Option.bind_eq_some_iff.mp turn
  obtain ⟨g', gain', rest'⟩ := Option.bind_eq_some_iff.mp turn'
  obtain ⟨v, value, written⟩ := Option.bind_eq_some_iff.mp rest
  obtain ⟨v', value', written'⟩ := Option.bind_eq_some_iff.mp rest'
  obtain rfl := Option.some.inj (gain.symm.trans gain')
  rw [input.same i below] at value
  obtain rfl := Option.some.inj (value.symm.trans value')
  refine (put_both related written written').mono fun j here => ?_
  rcases here with kept | before
  · exact Or.inl (Or.inl kept)
  · exact (Nat.lt_succ_iff_lt_or_eq.mp before).imp Or.inr id

private theorem zip_both {g : F → F → F} {n : Nat} {x x' y y' xs xs' : List F}
    (left : SameOn p x x') (right : SameOn q y y') (first : ∀ i < n, p i) (second : ∀ i < n, q i)
    (run : (List.range n).foldlM (fun x i => do
      let u ← x[i]?
      let v ← y[i]?
      put x i (g u v)) x = some xs)
    (run' : (List.range n).foldlM (fun x i => do
      let u ← x[i]?
      let v ← y'[i]?
      put x i (g u v)) x' = some xs') : SameOn p xs xs' := by
  refine range_related (R := fun _ xs ys => SameOn p xs ys)
    (fun i below s t s' t' related turn turn' => ?_) left run run'
  obtain ⟨u, here, rest⟩ := Option.bind_eq_some_iff.mp turn
  obtain ⟨u', here', rest'⟩ := Option.bind_eq_some_iff.mp turn'
  obtain ⟨v, there, written⟩ := Option.bind_eq_some_iff.mp rest
  obtain ⟨v', there', written'⟩ := Option.bind_eq_some_iff.mp rest'
  rw [related.same i (first i below)] at here
  rw [right.same i (second i below)] at there
  obtain rfl := Option.some.inj (here.symm.trans here')
  obtain rfl := Option.some.inj (there.symm.trans there')
  exact put_kept related written written'

theorem addTo_both {n : Nat} {x x' y y' xs xs' : List F} (left : SameOn p x x')
    (right : SameOn q y y') (first : ∀ i < n, p i) (second : ∀ i < n, q i)
    (run : addTo ops x y n = some xs) (run' : addTo ops x' y' n = some xs') : SameOn p xs xs' :=
  zip_both left right first second run run'

theorem gate_both {n : Nat} {x x' y y' xs xs' : List F} (left : SameOn p x x')
    (right : SameOn q y y') (first : ∀ i < n, p i) (second : ∀ i < n, q i)
    (run : gate ops x y n = some xs) (run' : gate ops x' y' n = some xs') : SameOn p xs xs' :=
  zip_both left right first second run run'

variable {w : Weights F}

private theorem rotate_both {xs ys xs' ys' : List F} {place base : Nat} (agree : SameOn p xs ys)
    (here : p base) (there : p (base + 1)) (run : rotate ops w xs place base = some xs')
    (run' : rotate ops w ys place base = some ys') : SameOn p xs' ys' := by
  obtain ⟨cos, angle, r1⟩ := Option.bind_eq_some_iff.mp run
  obtain ⟨cos', angle', s1⟩ := Option.bind_eq_some_iff.mp run'
  obtain ⟨sin, angle2, r2⟩ := Option.bind_eq_some_iff.mp r1
  obtain ⟨sin', angle2', s2⟩ := Option.bind_eq_some_iff.mp s1
  obtain ⟨a, first, r3⟩ := Option.bind_eq_some_iff.mp r2
  obtain ⟨a', first', s3⟩ := Option.bind_eq_some_iff.mp s2
  obtain ⟨b, second, r4⟩ := Option.bind_eq_some_iff.mp r3
  obtain ⟨b', second', s4⟩ := Option.bind_eq_some_iff.mp s3
  obtain ⟨zs, one, two⟩ := Option.bind_eq_some_iff.mp r4
  obtain ⟨zs', one', two'⟩ := Option.bind_eq_some_iff.mp s4
  obtain rfl := Option.some.inj (angle.symm.trans angle')
  obtain rfl := Option.some.inj (angle2.symm.trans angle2')
  rw [agree.same _ here] at first
  rw [agree.same _ there] at second
  obtain rfl := Option.some.inj (first.symm.trans first')
  obtain rfl := Option.some.inj (second.symm.trans second')
  exact put_kept (put_kept agree one one') two two'

theorem rotateHeads_both {xs ys xs' ys' : List F} {heads headSize pos offset : Nat}
    (agree : SameOn p xs ys)
    (inside : ∀ head < heads, ∀ i < headSize, p (offset + head * headSize + i))
    (run : rotateHeads ops w heads headSize pos offset xs = some xs')
    (run' : rotateHeads ops w heads headSize pos offset ys = some ys') : SameOn p xs' ys' := by
  refine range_related (R := fun _ xs ys => SameOn p xs ys)
    (fun head below s t s' t' related turn turn' => ?_) agree run run'
  refine range_related (R := fun _ xs ys => SameOn p xs ys)
    (fun i below' s t s' t' related turn turn' => ?_) related turn turn'
  exact rotate_both related (inside head below (i * 2) (by omega))
    (inside head below (i * 2 + 1) (by omega)) turn turn'

end Vectors

section Attention

variable {F : Type} {ops : Floats F} {c : Config} {w : Weights F} {d : Shape}
  {layer pos head : Nat} {p : Nat → Prop}

/-- The heads of the keys serve as many heads each. -/
structure Grouped (c : Config) (d : Shape) : Prop where
  shared : Shared c d
  served : d.kvMul * c.nKvHeads = c.nHeads

/-- The row of a cache for a layer and a position. -/
def Row (c : Config) (d : Shape) (layer t j : Nat) : Prop :=
  layer * c.seqLen * d.kvDim + t * d.kvDim ≤ j ∧
    j < layer * c.seqLen * d.kvDim + t * d.kvDim + d.kvDim

theorem place_row (grouped : Grouped c d) (below : head < c.nHeads) (layer t : Nat) :
    ∃ place, cachePlace c d layer head t = some place ∧
      ∀ i < d.headSize, Row c d layer t (place + i) := by
  have positive := grouped.shared.groups
  have group : head / d.kvMul < c.nKvHeads := by
    refine Nat.div_lt_of_lt_mul ?_
    rwa [grouped.served]
  have inside := key_head_in grouped.shared group
  refine ⟨layer * c.seqLen * d.kvDim + t * d.kvDim + head / d.kvMul * d.headSize, ?_,
    fun i small => ⟨by omega, by omega⟩⟩
  rw [cachePlace, quotient, if_neg (Nat.pos_iff_ne_zero.mp positive)]
  rfl

theorem scores_both (grouped : Grouped c d) (below : head < c.nHeads)
    {keys keys' q att att' ys ys' : List F} (agree : SameOn p keys keys')
    (seen : ∀ t ≤ pos, ∀ j, Row c d layer t j → p j) (room : att.length = att'.length)
    (run : scores ops c d layer head pos keys q att = some ys)
    (run' : scores ops c d layer head pos keys' q att' = some ys') :
    SameOn (· < pos + 1) ys ys' := by
  refine range_related (R := fun i xs ys => SameOn (· < i) xs ys)
    (fun t inside s u s' u' related turn turn' => ?_)
    ⟨room, fun i none => absurd none (Nat.not_lt_zero i)⟩ run run'
  obtain ⟨place, found, row⟩ := place_row grouped below layer t
  obtain ⟨place1, found1, rest⟩ := Option.bind_eq_some_iff.mp turn
  obtain ⟨place2, found2, rest'⟩ := Option.bind_eq_some_iff.mp turn'
  obtain rfl := Option.some.inj (found.symm.trans found1)
  obtain rfl := Option.some.inj (found.symm.trans found2)
  obtain ⟨score, total, written⟩ := Option.bind_eq_some_iff.mp rest
  obtain ⟨score', total', written'⟩ := Option.bind_eq_some_iff.mp rest'
  rw [dot_both (SameOn.refl _ q) (fun j _ => trivial) agree (fun j least most =>
    seen t (Nat.le_of_lt_succ inside) j (by
      obtain ⟨i, rfl⟩ := Nat.exists_eq_add_of_le least
      exact row i (by omega)))] at total
  obtain rfl := Option.some.inj (total.symm.trans total')
  exact (put_both related written written').mono fun j before => Nat.lt_succ_iff_lt_or_eq.mp before

theorem mix_both (grouped : Grouped c d) (below : head < c.nHeads)
    {values values' att out : List F} (agree : SameOn p values values')
    (seen : ∀ t ≤ pos, ∀ j, Row c d layer t j → p j) :
    mix ops c d layer head pos values att out = mix ops c d layer head pos values' att out := by
  refine range_congr (fun t inside out => ?_) out
  obtain ⟨place, found, row⟩ := place_row grouped below layer t
  rw [found]
  change (att[t]?.bind fun weight => _) = att[t]?.bind fun weight => _
  refine congrArg (Option.bind _) (funext fun weight => range_congr (fun i small out => ?_) out)
  rw [agree.same _ (seen t (Nat.le_of_lt_succ inside) _ (row i small))]

theorem copyInto_both {xs ys row xs' ys' : List F} {n : Nat} (agree : SameOn p xs ys)
    (run : copyInto xs n row = some xs') (run' : copyInto ys n row = some ys') :
    SameOn (fun j => p j ∨ j < n) xs' ys' := by
  obtain ⟨target, cut, rest⟩ := Option.bind_eq_some_iff.mp run
  obtain ⟨target', cut', rest'⟩ := Option.bind_eq_some_iff.mp run'
  obtain ⟨size, -, inside⟩ := part_length cut
  have size' := (part_length cut').1
  split_ifs at rest rest' with whole whole'
  obtain rfl := Option.some.inj rest
  obtain rfl := Option.some.inj rest'
  refine (putBack_both agree (by omega)).mono fun j here => here.imp id fun below => ?_
  exact ⟨Nat.zero_le j, by omega⟩

theorem project_both {cache cache' xb xb' tensor ys ys' : List F} {offset : Nat}
    (agree : SameOn p cache cache') (input : SameOn (· < c.dim) xb xb')
    (run : project ops c d offset layer cache xb tensor = some ys)
    (run' : project ops c d offset layer cache' xb' tensor = some ys') :
    SameOn (fun j => p j ∨ offset ≤ j ∧ j < offset + d.kvDim) ys ys' := by
  obtain ⟨row, cut, r1⟩ := Option.bind_eq_some_iff.mp run
  obtain ⟨row', cut', s1⟩ := Option.bind_eq_some_iff.mp run'
  obtain ⟨x, start, r2⟩ := Option.bind_eq_some_iff.mp r1
  obtain ⟨x', start', s2⟩ := Option.bind_eq_some_iff.mp s1
  obtain ⟨v, tail, r3⟩ := Option.bind_eq_some_iff.mp r2
  obtain ⟨v', tail', s3⟩ := Option.bind_eq_some_iff.mp s2
  obtain ⟨new, product, whole⟩ := Option.bind_eq_some_iff.mp r3
  obtain ⟨new', product', whole'⟩ := Option.bind_eq_some_iff.mp s3
  obtain rfl := Option.some.inj whole
  obtain rfl := Option.some.inj whole'
  obtain rfl := Option.some.inj (tail.symm.trans tail')
  obtain ⟨size, -, inside⟩ := part_length cut
  have size' := (part_length cut').1
  rw [input.part fun i _ below => below] at start
  obtain rfl := Option.some.inj (start.symm.trans start')
  have long := matmul_length product
  have rows : new = new' := by
    refine (matmul_both (SameOn.of_length (size.trans size'.symm)) (SameOn.refl _ x) product
      product').eq fun i below => Or.inr ?_
    omega
  subst rows
  refine (putBack_both agree (by omega)).mono fun j here => here.imp id fun within => ?_
  omega

end Attention

section States

variable {F : Type} {ops : Floats F} {c : Config} {w : Weights F} {d : Shape}
  {layer pos head : Nat} {s t s' t' : RunState F}

/-- What a generation has put into the caches before a layer at a position. -/
def Seen (c : Config) (d : Shape) (pos layer j : Nat) : Prop :=
  ∃ l t, l < c.nLayers ∧ (t < pos ∨ t = pos ∧ l < layer) ∧ Row c d l t j

/-- Two states in which a generation sees the same. -/
structure Alike (c : Config) (d : Shape) (pos layer : Nat) (s t : RunState F) : Prop where
  sized : Sized s
  sized' : Sized t
  keys : SameOn (Seen c d pos layer) s.keyCache t.keyCache
  values : SameOn (Seen c d pos layer) s.valueCache t.valueCache
  logits : SameOn (c.vocabSize ≤ ·) s.logits t.logits

structure Near (c : Config) (d : Shape) (pos layer : Nat) (s t : RunState F) : Prop extends
    Alike c d pos layer s t where
  x : SameOn (· < c.dim) s.x t.x

structure Within (c : Config) (d : Shape) (pos layer : Nat) (s t : RunState F) : Prop extends
    Near c d pos layer s t where
  xb : SameOn (· < c.dim) s.xb t.xb
  q : SameOn (· < c.dim) s.q t.q

private theorem sized_of {run : Option (RunState F)} (some' : ∃ s, run = some s ∧ Sized s)
    (here : run = some s) : Sized s := by
  obtain ⟨u, there, sized⟩ := some'
  exact Option.some.inj (there.symm.trans here) ▸ sized

theorem seen_row (layer_in : layer < c.nLayers) {t j : Nat} (upTo : t ≤ pos)
    (row : Row c d layer t j) : Seen c d pos (layer + 1) j :=
  ⟨layer, t, layer_in, (Nat.lt_or_eq_of_le upTo).imp id fun same =>
    ⟨same, Nat.lt_succ_self layer⟩, row⟩

theorem seen_next {j : Nat} (seen : Seen c d pos (layer + 1) j) :
    Seen c d pos layer j ∨ Row c d layer pos j := by
  obtain ⟨l, t, inside, when', row⟩ := seen
  rcases when' with before | ⟨rfl, upTo⟩
  · exact Or.inl ⟨l, t, inside, Or.inl before, row⟩
  · rcases Nat.lt_succ_iff_lt_or_eq.mp upTo with below | rfl
    · exact Or.inl ⟨l, t, inside, Or.inr ⟨rfl, below⟩, row⟩
    · exact Or.inr row

theorem projections_both (small : Small c) (grouped : Grouped c d)
    (cut : Cut c d.kvDim d.headSize w) (layer_in : layer < c.nLayers) (pos_in : pos < c.seqLen)
    (near : Near c d pos layer s t) (run : projections ops c w d pos s layer = some s')
    (run' : projections ops c w d pos t layer = some t') :
    Within c d pos (layer + 1) s' t' := by
  have sized := sized_of (projections_some ops small grouped.shared cut layer_in pos_in near.sized)
    run
  have sized' := sized_of
    (projections_some ops small grouped.shared cut layer_in pos_in near.sized') run'
  obtain ⟨g, gains, r1⟩ := Option.bind_eq_some_iff.mp run
  obtain ⟨g', gains', s1⟩ := Option.bind_eq_some_iff.mp run'
  obtain ⟨xb, norm, r2⟩ := Option.bind_eq_some_iff.mp r1
  obtain ⟨xb', norm', s2⟩ := Option.bind_eq_some_iff.mp s1
  obtain ⟨input, front, r3⟩ := Option.bind_eq_some_iff.mp r2
  obtain ⟨input', front', s3⟩ := Option.bind_eq_some_iff.mp s2
  obtain ⟨wq, tail, r4⟩ := Option.bind_eq_some_iff.mp r3
  obtain ⟨wq', tail', s4⟩ := Option.bind_eq_some_iff.mp s3
  obtain ⟨q, query, r5⟩ := Option.bind_eq_some_iff.mp r4
  obtain ⟨q', query', s5⟩ := Option.bind_eq_some_iff.mp s4
  obtain ⟨keys, keyed, r6⟩ := Option.bind_eq_some_iff.mp r5
  obtain ⟨keys', keyed', s6⟩ := Option.bind_eq_some_iff.mp s5
  obtain ⟨values, valued, r7⟩ := Option.bind_eq_some_iff.mp r6
  obtain ⟨values', valued', s7⟩ := Option.bind_eq_some_iff.mp s6
  obtain ⟨q1, turned, r8⟩ := Option.bind_eq_some_iff.mp r7
  obtain ⟨q1', turned', s8⟩ := Option.bind_eq_some_iff.mp s7
  obtain ⟨keys1, turned2, r9⟩ := Option.bind_eq_some_iff.mp r8
  obtain ⟨keys1', turned2', s9⟩ := Option.bind_eq_some_iff.mp s8
  obtain rfl := Option.some.inj r9
  obtain rfl := Option.some.inj s9
  obtain rfl := Option.some.inj (gains.symm.trans gains')
  obtain rfl := Option.some.inj (tail.symm.trans tail')
  have xbs : SameOn (· < c.dim) xb xb' :=
    (rmsnorm_both (SameOn.of_length (near.sized.xb.trans near.sized'.xb.symm)) near.x norm
      norm').mono fun _ => Or.inr
  rw [xbs.part fun i _ below => below] at front
  obtain rfl := Option.some.inj (front.symm.trans front')
  have qs : SameOn (· < c.dim) q q' :=
    (matmul_both (SameOn.of_length (near.sized.q.trans near.sized'.q.symm)) (SameOn.refl _ input)
      query query').mono fun _ => Or.inr
  have row : ∀ j, layer * c.seqLen * d.kvDim + pos * d.kvDim ≤ j ∧
      j < layer * c.seqLen * d.kvDim + pos * d.kvDim + d.kvDim ↔ Row c d layer pos j :=
    fun j => Iff.rfl
  have keyRows : SameOn (Seen c d pos (layer + 1)) keys keys' :=
    (project_both near.keys xbs keyed keyed').mono fun j seen => seen_next seen
  have valueRows : SameOn (Seen c d pos (layer + 1)) values values' :=
    (project_both near.values xbs valued valued').mono fun j seen => seen_next seen
  refine ⟨⟨⟨sized, sized', ?_, valueRows, near.logits⟩, near.x⟩, xbs, ?_⟩
  · refine rotateHeads_both keyRows (fun head below i inside => ?_) turned2 turned2'
    have room := key_head_in grouped.shared below
    exact seen_row layer_in (Nat.le_refl pos) ⟨by omega, by omega⟩
  · refine rotateHeads_both qs (fun head below i inside => ?_) turned turned'
    have room := head_in grouped.shared below
    omega

theorem attendHead_both (small : Small c) (grouped : Grouped c d) (layer_in : layer < c.nLayers)
    (pos_in : pos < c.seqLen) (below : head < c.nHeads)
    (within : Within c d pos (layer + 1) s t)
    (run : attendHead ops c d layer pos s head = some s')
    (run' : attendHead ops c d layer pos t head = some t') :
    Within c d pos (layer + 1) s' t' := by
  have sized := sized_of
    (attendHead_some ops small grouped.shared layer_in pos_in below within.sized) run
  have sized' := sized_of
    (attendHead_some ops small grouped.shared layer_in pos_in below within.sized') run'
  have room := head_in grouped.shared below
  obtain ⟨q, query, r1⟩ := Option.bind_eq_some_iff.mp run
  obtain ⟨q', query', s1⟩ := Option.bind_eq_some_iff.mp run'
  obtain ⟨att, old, r2⟩ := Option.bind_eq_some_iff.mp r1
  obtain ⟨att', old', s2⟩ := Option.bind_eq_some_iff.mp s1
  obtain ⟨scored, score, r3⟩ := Option.bind_eq_some_iff.mp r2
  obtain ⟨scored', score', s3⟩ := Option.bind_eq_some_iff.mp s2
  obtain ⟨weights, soft, r4⟩ := Option.bind_eq_some_iff.mp r3
  obtain ⟨weights', soft', s4⟩ := Option.bind_eq_some_iff.mp s3
  obtain ⟨out, front, r5⟩ := Option.bind_eq_some_iff.mp r4
  obtain ⟨out', front', s5⟩ := Option.bind_eq_some_iff.mp s4
  obtain ⟨mixed, mixing, r6⟩ := Option.bind_eq_some_iff.mp r5
  obtain ⟨mixed', mixing', s6⟩ := Option.bind_eq_some_iff.mp s5
  obtain rfl := Option.some.inj r6
  obtain rfl := Option.some.inj s6
  rw [within.q.part fun i _ inside => by omega] at query
  obtain rfl := Option.some.inj (query.symm.trans query')
  have seen : ∀ u ≤ pos, ∀ j, Row c d layer u j → Seen c d pos (layer + 1) j :=
    fun u upTo j row => seen_row layer_in upTo row
  have q_length := (part_length query').1
  have att_length := (part_length old).1
  have att_length' := (part_length old').1
  obtain ⟨out_length, -, out_in⟩ := part_length front
  have out_length' := (part_length front').1
  obtain ⟨ys, score2, ys_length⟩ := scores_some ops q att small grouped.shared layer_in pos_in below
    within.sized.keyCache (by omega) (by omega)
  obtain rfl := Option.some.inj (score2.symm.trans score)
  have same : ys = scored' :=
    (scores_both grouped below within.keys seen (by omega) score score').eq fun i inside => by
      omega
  subst same
  obtain rfl := Option.some.inj (soft.symm.trans soft')
  have blank : out.map (fun _ => ops.zero) = out'.map fun _ => ops.zero := by
    rw [List.map_const', List.map_const', out_length, out_length']
  have weighed : weights.length = pos + 1 := by
    obtain ⟨zs, soft2, zs_length⟩ := softmax_some ops ys (by omega)
    rw [← Option.some.inj (soft2.symm.trans soft)]
    omega
  obtain ⟨zs, mixing2, zs_length⟩ := mix_some ops weights (out.map fun _ => ops.zero) small
    grouped.shared layer_in pos_in below within.sized.valueCache weighed
    (by rw [List.length_map]; omega)
  obtain rfl := Option.some.inj (mixing2.symm.trans mixing)
  rw [mix_both grouped below within.values seen, blank] at mixing
  obtain rfl := Option.some.inj (mixing.symm.trans mixing')
  rw [List.length_map] at zs_length
  exact ⟨⟨⟨sized, sized', within.keys, within.values, within.logits⟩, within.x⟩,
    (putBack_both within.xb (by omega)).mono fun _ => Or.inl, within.q⟩

theorem attended_both (small : Small c) (shared : Shared c d) (cut : Cut c d.kvDim d.headSize w)
    (layer_in : layer < c.nLayers) (within : Within c d pos (layer + 1) s t)
    (run : attended ops c w s layer = some s') (run' : attended ops c w t layer = some t') :
    Near c d pos (layer + 1) s' t' := by
  have sized := sized_of (attended_some ops small shared cut layer_in within.sized) run
  have sized' := sized_of (attended_some ops small shared cut layer_in within.sized') run'
  obtain ⟨input, front, r1⟩ := Option.bind_eq_some_iff.mp run
  obtain ⟨input', front', s1⟩ := Option.bind_eq_some_iff.mp run'
  obtain ⟨wo, tail, r2⟩ := Option.bind_eq_some_iff.mp r1
  obtain ⟨wo', tail', s2⟩ := Option.bind_eq_some_iff.mp s1
  obtain ⟨xb2, product, r3⟩ := Option.bind_eq_some_iff.mp r2
  obtain ⟨xb2', product', s3⟩ := Option.bind_eq_some_iff.mp s2
  obtain ⟨x, added, r4⟩ := Option.bind_eq_some_iff.mp r3
  obtain ⟨x', added', s4⟩ := Option.bind_eq_some_iff.mp s3
  obtain rfl := Option.some.inj r4
  obtain rfl := Option.some.inj s4
  obtain rfl := Option.some.inj (tail.symm.trans tail')
  rw [within.xb.part fun i _ inside => inside] at front
  obtain rfl := Option.some.inj (front.symm.trans front')
  have xb2s : SameOn (· < c.dim) xb2 xb2' :=
    (matmul_both (SameOn.of_length (within.sized.xb2.trans within.sized'.xb2.symm))
      (SameOn.refl _ input) product product').mono fun _ => Or.inr
  exact ⟨⟨sized, sized', within.keys, within.values, within.logits⟩,
    addTo_both within.x xb2s (fun i below => below) (fun i below => below) added added'⟩

theorem feedForward_both (small : Small c) {kvDim headSize : Nat} (cut : Cut c kvDim headSize w)
    (layer_in : layer < c.nLayers) (near : Near c d pos (layer + 1) s t)
    (run : feedForward ops c w s layer = some s') (run' : feedForward ops c w t layer = some t') :
    Near c d pos (layer + 1) s' t' := by
  have sized := sized_of (feedForward_some ops small cut layer_in near.sized) run
  have sized' := sized_of (feedForward_some ops small cut layer_in near.sized') run'
  obtain ⟨g, gains, r1⟩ := Option.bind_eq_some_iff.mp run
  obtain ⟨g', gains', s1⟩ := Option.bind_eq_some_iff.mp run'
  obtain ⟨xb, norm, r2⟩ := Option.bind_eq_some_iff.mp r1
  obtain ⟨xb', norm', s2⟩ := Option.bind_eq_some_iff.mp s1
  obtain ⟨input, front, r3⟩ := Option.bind_eq_some_iff.mp r2
  obtain ⟨input', front', s3⟩ := Option.bind_eq_some_iff.mp s2
  obtain ⟨w1, tail1, r4⟩ := Option.bind_eq_some_iff.mp r3
  obtain ⟨w1', tail1', s4⟩ := Option.bind_eq_some_iff.mp s3
  obtain ⟨hb, first, r5⟩ := Option.bind_eq_some_iff.mp r4
  obtain ⟨hb', first', s5⟩ := Option.bind_eq_some_iff.mp s4
  obtain ⟨w3, tail3, r6⟩ := Option.bind_eq_some_iff.mp r5
  obtain ⟨w3', tail3', s6⟩ := Option.bind_eq_some_iff.mp s5
  obtain ⟨hb2, second, r7⟩ := Option.bind_eq_some_iff.mp r6
  obtain ⟨hb2', second', s7⟩ := Option.bind_eq_some_iff.mp s6
  obtain ⟨gated, opened, r8⟩ := Option.bind_eq_some_iff.mp r7
  obtain ⟨gated', opened', s8⟩ := Option.bind_eq_some_iff.mp s7
  obtain ⟨hidden, front2, r9⟩ := Option.bind_eq_some_iff.mp r8
  obtain ⟨hidden', front2', s9⟩ := Option.bind_eq_some_iff.mp s8
  obtain ⟨w2, tail2, r10⟩ := Option.bind_eq_some_iff.mp r9
  obtain ⟨w2', tail2', s10⟩ := Option.bind_eq_some_iff.mp s9
  obtain ⟨xb1, third, r11⟩ := Option.bind_eq_some_iff.mp r10
  obtain ⟨xb1', third', s11⟩ := Option.bind_eq_some_iff.mp s10
  obtain ⟨x, added, r12⟩ := Option.bind_eq_some_iff.mp r11
  obtain ⟨x', added', s12⟩ := Option.bind_eq_some_iff.mp s11
  obtain rfl := Option.some.inj r12
  obtain rfl := Option.some.inj s12
  obtain rfl := Option.some.inj (gains.symm.trans gains')
  obtain rfl := Option.some.inj (tail1.symm.trans tail1')
  obtain rfl := Option.some.inj (tail2.symm.trans tail2')
  obtain rfl := Option.some.inj (tail3.symm.trans tail3')
  have xbs : SameOn (· < c.dim) xb xb' :=
    (rmsnorm_both (SameOn.of_length (near.sized.xb.trans near.sized'.xb.symm)) near.x norm
      norm').mono fun _ => Or.inr
  rw [xbs.part fun i _ below => below] at front
  obtain rfl := Option.some.inj (front.symm.trans front')
  have hbs : SameOn (· < c.hiddenDim) hb hb' :=
    (matmul_both (SameOn.of_length (near.sized.hb.trans near.sized'.hb.symm))
      (SameOn.refl _ input) first first').mono fun _ => Or.inr
  have hb2s : SameOn (· < c.hiddenDim) hb2 hb2' :=
    (matmul_both (SameOn.of_length (near.sized.hb2.trans near.sized'.hb2.symm))
      (SameOn.refl _ input) second second').mono fun _ => Or.inr
  have gates : SameOn (· < c.hiddenDim) gated gated' :=
    gate_both hbs hb2s (fun i below => below) (fun i below => below) opened opened'
  rw [gates.part fun i _ below => below] at front2
  obtain rfl := Option.some.inj (front2.symm.trans front2')
  have outs : SameOn (· < c.dim) xb1 xb1' :=
    (matmul_both xbs (SameOn.refl _ hidden) third third').mono fun _ => Or.inr
  exact ⟨⟨sized, sized', near.keys, near.values, near.logits⟩,
    addTo_both near.x outs (fun i below => below) (fun i below => below) added added'⟩

theorem layerStep_both (small : Small c) (grouped : Grouped c d)
    (cut : Cut c d.kvDim d.headSize w) (layer_in : layer < c.nLayers) (pos_in : pos < c.seqLen)
    (near : Near c d pos layer s t) (run : layerStep ops c w d pos s layer = some s')
    (run' : layerStep ops c w d pos t layer = some t') : Near c d pos (layer + 1) s' t' := by
  obtain ⟨s1, projected, r1⟩ := Option.bind_eq_some_iff.mp run
  obtain ⟨t1, projected', u1⟩ := Option.bind_eq_some_iff.mp run'
  obtain ⟨s2, looked, r2⟩ := Option.bind_eq_some_iff.mp r1
  obtain ⟨t2, looked', u2⟩ := Option.bind_eq_some_iff.mp u1
  obtain ⟨s3, joined, fed⟩ := Option.bind_eq_some_iff.mp r2
  obtain ⟨t3, joined', fed'⟩ := Option.bind_eq_some_iff.mp u2
  have first := projections_both small grouped cut layer_in pos_in near projected projected'
  have heads : Within c d pos (layer + 1) s2 t2 :=
    range_related (R := fun _ s t => Within c d pos (layer + 1) s t)
      (fun head below s t s' t' related turn turn' =>
        attendHead_both small grouped layer_in pos_in below related turn turn') first looked looked'
  have behind := attended_both small grouped.shared cut layer_in heads joined joined'
  exact feedForward_both small cut layer_in behind fed fed'

theorem grouped_of_dvd (runnable : Runnable c) (layers : c.nLayers ≠ 0)
    (groups : c.nKvHeads ∣ c.nHeads) : Grouped c (shape c) :=
  ⟨shared_of_runnable runnable layers, Nat.div_mul_cancel groups⟩

theorem seen_later {j : Nat} (seen : Seen c d (pos + 1) 0 j) : Seen c d pos c.nLayers j := by
  obtain ⟨l, t, inside, before | ⟨-, none⟩, row⟩ := seen
  · exact ⟨l, t, inside, (Nat.lt_succ_iff_lt_or_eq.mp before).imp id (⟨·, inside⟩), row⟩
  · exact absurd none (Nat.not_lt_zero l)

theorem forward_both {token floats : Nat} (small : Small c) (whole : Whole c floats)
    (cut : Cut c (kvWidth c) (c.dim / c.nHeads) w) (runnable : Runnable c)
    (groups : c.nKvHeads ∣ c.nHeads) (known : token < c.vocabSize) (pos_in : pos < c.seqLen)
    (alike : Alike c (shape c) pos 0 s t) :
    ∃ s' t', forward ops c w s token pos = some s' ∧ forward ops c w t token pos = some t' ∧
      Alike c (shape c) (pos + 1) 0 s' t' ∧ s'.logits = t'.logits := by
  obtain ⟨s', run, sized⟩ :=
    forward_some ops small whole cut runnable known pos_in alike.sized
  obtain ⟨t', run', sized'⟩ :=
    forward_some ops small whole cut runnable known pos_in alike.sized'
  refine ⟨s', t', run, run', ?_⟩
  rw [forward_eq whole runnable.keys] at run run'
  obtain ⟨row, cut1, r1⟩ := Option.bind_eq_some_iff.mp run
  obtain ⟨row', cut1', u1⟩ := Option.bind_eq_some_iff.mp run'
  obtain ⟨x, copied, r2⟩ := Option.bind_eq_some_iff.mp r1
  obtain ⟨x', copied', u2⟩ := Option.bind_eq_some_iff.mp u1
  obtain ⟨s1, layers, r3⟩ := Option.bind_eq_some_iff.mp r2
  obtain ⟨t1, layers', u3⟩ := Option.bind_eq_some_iff.mp u2
  obtain ⟨y, norm, r4⟩ := Option.bind_eq_some_iff.mp r3
  obtain ⟨y', norm', u4⟩ := Option.bind_eq_some_iff.mp u3
  obtain ⟨input, front, r5⟩ := Option.bind_eq_some_iff.mp r4
  obtain ⟨input', front', u5⟩ := Option.bind_eq_some_iff.mp u4
  obtain ⟨logits, classified, r6⟩ := Option.bind_eq_some_iff.mp r5
  obtain ⟨logits', classified', u6⟩ := Option.bind_eq_some_iff.mp u5
  obtain rfl := Option.some.inj r6
  obtain rfl := Option.some.inj u6
  obtain rfl := Option.some.inj (cut1.symm.trans cut1')
  have embedded : SameOn (· < c.dim) x x' :=
    (copyInto_both (SameOn.of_length (alike.sized.x.trans alike.sized'.x.symm)) copied
      copied').mono fun _ => Or.inr
  have dims : x.length = maxDim ∧ x'.length = maxDim := by
    obtain ⟨z, copied2, length⟩ := copyInto_some s.x row (n := c.dim)
      (by rw [alike.sized.x]; exact small.dim)
      (by rw [(part_length cut1).1]; omega)
    obtain rfl := Option.some.inj (copied2.symm.trans copied)
    exact ⟨length.trans alike.sized.x, embedded.length ▸ length.trans alike.sized.x⟩
  have entered : Near c (shape c) pos 0 { s with x := x } { t with x := x' } :=
    ⟨⟨{ alike.sized with x := dims.1 }, { alike.sized' with x := dims.2 }, alike.keys,
      alike.values, alike.logits⟩, embedded⟩
  have left : Near c (shape c) pos c.nLayers s1 t1 :=
    range_related (R := fun layer s t => Near c (shape c) pos layer s t)
      (fun layer below s t s' t' near turn turn' =>
        layerStep_both small (grouped_of_dvd runnable (Nat.ne_zero_of_lt below) groups) cut below
          pos_in near turn turn') entered layers layers'
  have outputs : SameOn (· < c.dim) y y' :=
    (rmsnorm_both (SameOn.of_length left.x.length) left.x norm norm').mono fun _ => Or.inr
  rw [outputs.part fun i _ below => below] at front
  obtain rfl := Option.some.inj (front.symm.trans front')
  have same : logits = logits' :=
    (matmul_both left.logits (SameOn.refl _ input) classified classified').eq fun i _ =>
      Nat.lt_or_ge i c.vocabSize |>.symm
  exact ⟨⟨sized, sized', left.keys.mono fun j => seen_later, left.values.mono fun j => seen_later,
    same ▸ SameOn.refl _ _⟩, same⟩

theorem alike_at_start (d : Shape) (sized : Sized s) (sized' : Sized t)
    (vocabulary : c.vocabSize = ModelFile.maxVocab) : Alike c d 0 0 s t := by
  have unseen : ∀ j, ¬Seen c d 0 0 j := by
    rintro j ⟨l, u, -, before | ⟨-, before⟩, -⟩
    · exact absurd before (Nat.not_lt_zero u)
    · exact absurd before (Nat.not_lt_zero l)
  refine ⟨sized, sized', ⟨sized.keyCache.trans sized'.keyCache.symm, fun j seen => ?_⟩,
    ⟨sized.valueCache.trans sized'.valueCache.symm, fun j seen => ?_⟩,
    ⟨sized.logits.trans sized'.logits.symm, fun j behind => ?_⟩⟩
  · exact absurd seen (unseen j)
  · exact absurd seen (unseen j)
  · rw [List.getElem?_eq_none (by rw [sized.logits]; omega),
      List.getElem?_eq_none (by rw [sized'.logits]; omega)]

end States

end FiveAM.Llm.Leftovers
