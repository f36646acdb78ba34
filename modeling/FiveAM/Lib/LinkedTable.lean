/- GID: FiveAM/Lib/LinkedTable
   layer: library
   digest: Lists kept in a table of successors: walking, linking, overwriting. -/

import Mathlib.Data.List.Nodup
import Mathlib.Logic.Function.Basic

set_option autoImplicit false
set_option relaxedAutoImplicit false

namespace FiveAM.Lib.LinkedTable

variable {α : Type} {next next' : α → α} {Live Stop : α → Prop}

/-- `cells` is what following `next` from `c` goes through, every one of it `Live`, up
to a `Stop`. -/
def Chain (next : α → α) (Live Stop : α → Prop) : α → List α → Prop
  | c, [] => Stop c
  | c, x :: rest => c = x ∧ Live x ∧ Chain next Live Stop (next x) rest

namespace Chain

theorem live {c : α} {cells : List α} (chain : Chain next Live Stop c cells) :
    ∀ x ∈ cells, Live x := by
  induction cells generalizing c with
  | nil => simp
  | cons x rest ih =>
      obtain ⟨_, alive, later⟩ := chain
      intro y member
      rcases List.mem_cons.mp member with rfl | member
      · exact alive
      · exact ih later y member

theorem congr {c : α} {cells : List α} (chain : Chain next Live Stop c cells)
    (same : ∀ x ∈ cells, next' x = next x) : Chain next' Live Stop c cells := by
  induction cells generalizing c with
  | nil => exact chain
  | cons x rest ih =>
      obtain ⟨rfl, alive, later⟩ := chain
      refine ⟨rfl, alive, ?_⟩
      rw [same c (by simp)]
      exact ih later fun y member => same y (List.mem_cons_of_mem _ member)

theorem mono {Live' : α → Prop} {c : α} {cells : List α}
    (chain : Chain next Live Stop c cells) (more : ∀ x ∈ cells, Live x → Live' x) :
    Chain next Live' Stop c cells := by
  induction cells generalizing c with
  | nil => exact chain
  | cons x rest ih =>
      obtain ⟨rfl, alive, later⟩ := chain
      exact ⟨rfl, more c (by simp) alive,
        ih later fun y member => more y (List.mem_cons_of_mem _ member)⟩

theorem tail {c : α} {front back : List α} (chain : Chain next Live Stop c (front ++ back)) :
    ∃ c', Chain next Live Stop c' back := by
  induction front generalizing c with
  | nil => exact ⟨c, chain⟩
  | cons x rest ih => exact ih chain.2.2

theorem unique (apart : ∀ x, Live x → ¬ Stop x) {c : α} {cells others : List α}
    (chain : Chain next Live Stop c cells) (other : Chain next Live Stop c others) :
    cells = others := by
  induction cells generalizing c others with
  | nil =>
      cases others with
      | nil => rfl
      | cons y rest =>
          obtain ⟨rfl, alive, _⟩ := other
          exact absurd chain (apart c alive)
  | cons x rest ih =>
      obtain ⟨rfl, alive, later⟩ := chain
      cases others with
      | nil => exact absurd other (apart c alive)
      | cons y rest' =>
          obtain ⟨rfl, _, later'⟩ := other
          rw [ih later later']

theorem nodup (apart : ∀ x, Live x → ¬ Stop x) {c : α} {cells : List α}
    (chain : Chain next Live Stop c cells) : cells.Nodup := by
  induction cells generalizing c with
  | nil => exact List.nodup_nil
  | cons x rest ih =>
      obtain ⟨rfl, alive, later⟩ := chain
      refine List.nodup_cons.mpr ⟨?_, ih later⟩
      intro again
      obtain ⟨front, back, rfl⟩ := List.append_of_mem again
      obtain ⟨c', short⟩ := tail later
      obtain ⟨rfl, short⟩ := short
      have long : Chain next Live Stop c' (c' :: (front ++ c' :: back)) := ⟨rfl, alive, later⟩
      have equal : c' :: (front ++ c' :: back) = c' :: back := unique apart long ⟨rfl, short⟩
      have lengths := congrArg List.length equal
      simp at lengths
      omega

end Chain

section Updates

variable [DecidableEq α]

/-- Each cell points at the one after it, the last at `stop`; written from the last
cell to the first. -/
def linkAll (next : α → α) : List α → α → (α → α)
  | [], _ => next
  | x :: rest, stop => Function.update (linkAll next rest stop) x (rest.headD stop)

/-- Every one of the cells holds `z`. -/
def setAll (next : α → α) (cells : List α) (z : α) : α → α := fun x =>
  if x ∈ cells then z else next x

theorem linkAll_other {cells : List α} {stop x : α} (out : x ∉ cells) :
    linkAll next cells stop x = next x := by
  induction cells with
  | nil => rfl
  | cons y rest ih =>
      simp only [List.mem_cons, not_or] at out
      rw [linkAll, Function.update_of_ne out.1, ih out.2]

theorem linkAll_mem {cells : List α} {stop x : α} (inside : x ∈ cells) :
    linkAll next cells stop x = stop ∨ linkAll next cells stop x ∈ cells := by
  induction cells with
  | nil => simp at inside
  | cons y rest ih =>
      rw [linkAll]
      by_cases here : x = y
      · subst here
        rw [Function.update_self]
        cases rest with
        | nil => exact .inl rfl
        | cons z others => exact .inr (by simp)
      · rw [Function.update_of_ne here]
        rcases ih (by simpa [here] using inside) with last | link
        · exact .inl last
        · exact .inr (List.mem_cons_of_mem _ link)

theorem chain_linkAll {cells : List α} {stop : α} (distinct : cells.Nodup)
    (alive : ∀ x ∈ cells, Live x) (ends : Stop stop) :
    Chain (linkAll next cells stop) Live Stop (cells.headD stop) cells := by
  induction cells with
  | nil => exact ends
  | cons x rest ih =>
      obtain ⟨fresh, distinct⟩ := List.nodup_cons.mp distinct
      have later := ih distinct fun y member => alive y (List.mem_cons_of_mem _ member)
      refine ⟨rfl, alive x (by simp), ?_⟩
      rw [linkAll, Function.update_self]
      exact later.congr fun y member =>
        Function.update_of_ne (fun equal => fresh (by rwa [← equal])) _ _

@[simp] theorem setAll_nil (z : α) : setAll next [] z = next := by
  funext x
  simp [setAll]

theorem setAll_cons (x : α) (rest : List α) (z : α) :
    setAll next (x :: rest) z = setAll (Function.update next x z) rest z := by
  funext y
  by_cases here : y = x
  · subst here
    simp [setAll]
  · simp [setAll, here]

theorem setAll_other {cells : List α} {z x : α} (out : x ∉ cells) :
    setAll next cells z x = next x := if_neg out

theorem setAll_mem {cells : List α} {z x : α} (inside : x ∈ cells) :
    setAll next cells z x = z := if_pos inside

end Updates

end FiveAM.Lib.LinkedTable
