/- GID: FiveAM/Memory/Residency
   source: kernel/src/memory.rs
   digest: The user pages a walk reports, and the changes that leave all but their age. -/

import FiveAM.Memory.Ownership
import Mathlib.Tactic.IntervalCases

set_option autoImplicit false
set_option relaxedAutoImplicit false

namespace FiveAM.Memory.Residency

open FiveAM.Process.TaskTable (Word)
open FiveAM.Memory.Entries FiveAM.Memory.Frames FiveAM.Memory.Replace FiveAM.Memory.PageTables
open FiveAM.Memory.Ownership FiveAM.Lib.RadixTables

section Addresses

def pagePath (i3 i2 i1 : Index) : Nat → Index
  | 0 => i1
  | 1 => i2
  | 2 => i3
  | _ => 0

theorem userAddress_toNat (i3 i2 i1 : Index) :
    (userAddress i3 i2 i1).toNat = 2 ^ 30 * i3.val + (2 ^ 21 * i2.val + 2 ^ 12 * i1.val) := by
  have low := i1.isLt
  have middle := i2.isLt
  have high := i3.isLt
  have small : 2 ^ 21 * i2.val + 2 ^ 12 * i1.val < 2 ^ 30 := by omega
  rw [Nat.two_pow_add_eq_or_of_lt small, Nat.two_pow_add_eq_or_of_lt (by omega)]
  simp only [userAddress, BitVec.toNat_or, BitVec.toNat_shiftLeft, BitVec.toNat_ofNat,
    Nat.shiftLeft_eq, Nat.or_assoc]
  rw [Nat.mod_eq_of_lt (show i3.val < 2 ^ 64 by omega), Nat.mod_eq_of_lt (show i2.val < 2 ^ 64 by omega),
    Nat.mod_eq_of_lt (show i1.val < 2 ^ 64 by omega), Nat.mod_eq_of_lt (by omega),
    Nat.mod_eq_of_lt (by omega), Nat.mod_eq_of_lt (by omega), Nat.mul_comm i3.val,
    Nat.mul_comm i2.val, Nat.mul_comm i1.val]

theorem indexes_toNat (address : Word) (level : Nat) :
    (indexes address level).val = address.toNat / 2 ^ (12 + 9 * level) % 512 := by
  simp only [indexes, BitVec.toNat_ushiftRight, Nat.shiftRight_eq_div_pow]

theorem indexes_userAddress (i3 i2 i1 : Index) {level : Nat} (low : level ≤ 3) :
    indexes (userAddress i3 i2 i1) level = pagePath i3 i2 i1 level := by
  have first := i1.isLt
  have second := i2.isLt
  have third := i3.isLt
  apply Fin.ext
  rw [indexes_toNat, userAddress_toNat]
  interval_cases level
  · simp only [pagePath]
    omega
  · simp only [pagePath]
    omega
  · simp only [pagePath]
    omega
  · simp only [pagePath, Fin.val_zero]
    omega

end Addresses

section Listing

variable {s : Paging} {root : Word}

/-- Where a page's entry is kept: at the end of its indexes in the tree. -/
structure OnPage (m : Words) (root : Word) (page : Page) : Prop where
  low : indexes page.address 3 = 0
  index : page.index = indexes page.address 0
  route : Route userTree m (indexes page.address) 3 root 0 page.table

theorem OnPage.leaf {m : Words} {page : Page} (on : OnPage m root page) :
    leafAt m root (indexes page.address) = m page.table page.index := by
  rw [leafAt, entryAt_route on.route, on.index]

private theorem way {m : Words} {path : Nat → Index} {k : Nat} {u : Word} (sound : Sound m root)
    (user : path 3 = 0) (route : Route userTree m path 3 root (k + 1) u)
    (there : has (m u (path (k + 1))) present = true) :
    has (m u (path (k + 1))) huge = false ∧
      Route userTree m path 3 root k (frameOf (m u (path (k + 1)))) := by
  rcases sound.entry user route with ⟨absent, -⟩ | ⟨-, -, down⟩
  · rw [absent] at there
    exact absurd there (by decide)
  · exact ⟨(child_some down).2.1, route.next down⟩

private theorem listed_shape (sound : Sound s.words root) {page : Page}
    (listed : page ∈ userPages s root) :
    ∃ i3 i2 i1, Route userTree s.words (pagePath i3 i2 i1) 3 root 0 page.table ∧
      page = ⟨userAddress i3 i2 i1, s.words page.table i1, page.table, i1⟩ ∧
      has (s.words page.table i1) present = true := by
  unfold userPages at listed
  simp only at listed
  split_ifs at listed with absent
  · exact absurd listed (List.not_mem_nil)
  obtain ⟨i3, -, inner⟩ := List.mem_flatMap.mp listed
  split_ifs at inner with absent3
  · exact absurd inner (List.not_mem_nil)
  obtain ⟨i2, -, inner⟩ := List.mem_flatMap.mp inner
  split_ifs at inner with absent2
  · exact absurd inner (List.not_mem_nil)
  unfold pagesOfTable at inner
  obtain ⟨i1, -, last⟩ := List.mem_filterMap.mp inner
  simp only at last
  split_ifs at last with absent1
  simp only [Option.some.injEq] at last
  rw [not_or] at absent3 absent2
  have top : Route userTree s.words (pagePath i3 i2 i1) 3 root 3 root := .here 3 root
  obtain ⟨-, second⟩ := way sound rfl top (Bool.of_not_eq_false absent)
  obtain ⟨-, third⟩ := way sound rfl second (Bool.of_not_eq_false absent3.1)
  obtain ⟨-, fourth⟩ := way sound rfl third (Bool.of_not_eq_false absent2.1)
  subst last
  exact ⟨i3, i2, i1, fourth, rfl, Bool.of_not_eq_false absent1⟩

theorem mem_userPages (sound : Sound s.words root) {page : Page} (listed : page ∈ userPages s root) :
    OnPage s.words root page ∧ page.entry = s.words page.table page.index ∧
      has page.entry present = true := by
  obtain ⟨i3, i2, i1, route, shape, there⟩ := listed_shape sound listed
  have same : ∀ level, level ≤ 3 → indexes page.address level = pagePath i3 i2 i1 level := by
    intro level low
    rw [shape]
    exact indexes_userAddress i3 i2 i1 low
  refine ⟨⟨same 3 (by decide), ?_, route.indexes fun j _ low => same j low⟩, ?_, ?_⟩
  · rw [same 0 (by decide), shape]
    rfl
  · rw [shape]
  · rw [shape]
    exact there

/-- The address of the page that a list of indexes leads to. -/
def addressAt (path : Nat → Index) : Word := userAddress (path 2) (path 1) (path 0)

theorem address_userPages (sound : Sound s.words root) {page : Page}
    (listed : page ∈ userPages s root) : page.address = addressAt (indexes page.address) := by
  obtain ⟨i3, i2, i1, -, shape, -⟩ := listed_shape sound listed
  rw [shape]
  unfold addressAt
  rw [indexes_userAddress i3 i2 i1 (by decide), indexes_userAddress i3 i2 i1 (by decide),
    indexes_userAddress i3 i2 i1 (by decide)]
  rfl

theorem listed_of_present {path : Nat → Index}
    (there : has (leafAt s.words root path) present = true) :
    ∃ page ∈ userPages s root, ∀ j, j ≤ 3 → indexes page.address j = path j := by
  have first : ∀ {k : Nat} {u v : Word}, Route userTree s.words path (k + 1) u 0 v →
      ∃ c, userTree.child (k + 1) (path (k + 1)) (s.words u (path (k + 1))) = some c ∧
        Route userTree s.words path k c 0 v := by
    intro k u v route
    cases route with
    | down step rest => exact ⟨_, step, rest⟩
  rcases route_of_entryAt (R := userTree) s.words 3 root path with ⟨u, route, reads⟩ | blank
  · obtain ⟨c3, down3, route⟩ := first route
    obtain ⟨c2, down2, route⟩ := first route
    obtain ⟨c1, down1, route⟩ := first route
    obtain ⟨p3, -, slot, rfl⟩ := child_some down3
    obtain ⟨p2, h2, -, rfl⟩ := child_some down2
    obtain ⟨p1, h1, -, rfl⟩ := child_some down1
    have user : path 3 = 0 := slot rfl
    have last : u = frameOf (s.words (frameOf (s.words (frameOf (s.words root (path 3))) (path 2)))
        (path 1)) := route.unique (.here 0 _)
    have leaf : has (s.words u (path 0)) present = true := by
      rw [leafAt, reads] at there
      exact there
    refine ⟨⟨userAddress (path 2) (path 1) (path 0), s.words u (path 0), u, path 0⟩, ?_, ?_⟩
    · rw [user] at p3 p2 h2 p1 h1 last
      unfold userPages
      simp only [p3, Bool.true_eq_false, if_false]
      refine List.mem_flatMap.mpr ⟨path 2, List.mem_finRange _, ?_⟩
      rw [if_neg (by simp [p2, h2])]
      refine List.mem_flatMap.mpr ⟨path 1, List.mem_finRange _, ?_⟩
      rw [if_neg (by simp [p1, h1]), ← last]
      refine List.mem_filterMap.mpr ⟨path 0, List.mem_finRange _, ?_⟩
      rw [if_neg (by simp [leaf])]
    · intro j low
      rw [indexes_userAddress _ _ _ low]
      interval_cases j
      · rfl
      · rfl
      · rfl
      · exact user.symm
  · rw [leafAt, blank] at there
    exact absurd there (by decide)

end Listing

section Ages

def ages : Word := accessed ||| dirty

def ageless (e : Word) : Word := e &&& ~~~ages

theorem ageless_bit (e : Word) {k : Nat} (low : k < 64) (other : ages.getLsbD k = false) :
    (ageless e).getLsbD k = e.getLsbD k := by
  unfold ageless
  rw [BitVec.getLsbD_and, BitVec.getLsbD_not, other]
  simp [low]

theorem bit_of_ageless {e e' : Word} (same : ageless e' = ageless e) {k : Nat} (low : k < 64)
    (other : ages.getLsbD k = false) : e'.getLsbD k = e.getLsbD k := by
  rw [← ageless_bit e' low other, same, ageless_bit e low other]

theorem frameOf_ageless {e e' : Word} (same : ageless e' = ageless e) : frameOf e' = frameOf e := by
  have through : ∀ e, frameOf e = frameOf (ageless e) := by
    intro e
    unfold ageless frameOf
    rw [BitVec.and_assoc, show ~~~ages &&& addressMask = addressMask from by decide]
  rw [through e', same, ← through e]

theorem present_ageless {e e' : Word} (same : ageless e' = ageless e) :
    has e' present = has e present := by
  rw [has_present, has_present, bit_of_ageless same (by decide) (by decide)]

theorem swapped_ageless {e e' : Word} (same : ageless e' = ageless e) :
    has e' swapped = has e swapped := by
  rw [has_swapped, has_swapped, bit_of_ageless same (by decide) (by decide)]

theorem ageless_and_not_accessed (e : Word) : ageless (e &&& ~~~accessed) = ageless e := by
  unfold ageless
  rw [BitVec.and_assoc, show ~~~accessed &&& ~~~ages = ~~~ages from by decide]

theorem ageless_or {e more : Word} (aging : more &&& ~~~ages = 0) :
    ageless (e ||| more) = ageless e := by
  unfold ageless
  rw [BitVec.and_or_distrib_right, aging]
  exact BitVec.or_zero

/-- What sweeping the pages and using them changes: the ages of leaf entries, and
what the policies remember. -/
structure Aging (s s' : Paging) (live : Finset Word) : Prop where
  leaves : ∀ r ∈ live, ∀ p, ageless (leafAt s'.words r p) = ageless (leafAt s.words r p)
  tables : ∀ f, tableCount s'.words live f = tableCount s.words live f
  routes : ∀ r ∈ live, ∀ p k u, Route userTree s.words p 3 r k u →
    Route userTree s'.words p 3 r k u
  uppers : ∀ r ∈ live, ∀ p, above s'.words r p = above s.words r p
  data : ∀ f, tableCount s.words live f = 0 → s'.words f = s.words f
  head : s'.head = s.head
  free : s'.free = s.free
  shared : s'.shared = s.shared
  cr3 : s'.cr3 = s.cr3
  used : s'.used = s.used
  disk : s'.disk = s.disk
  active : s'.replacers.active = s.replacers.active
  fifo : s'.replacers.fifo = s.replacers.fifo

variable {s s' s'' : Paging} {managed live : Finset Word} {hand chain : List Word} {root : Word}

theorem Aging.refl (s : Paging) (live : Finset Word) : Aging s s live :=
  ⟨fun _ _ _ => rfl, fun _ => rfl, fun _ _ _ _ _ route => route, fun _ _ _ => rfl, fun _ _ => rfl,
    rfl, rfl, rfl, rfl, rfl, rfl, rfl, rfl⟩

theorem Aging.trans (first : Aging s s' live) (second : Aging s' s'' live) : Aging s s'' live where
  leaves r member p := (second.leaves r member p).trans (first.leaves r member p)
  tables f := (second.tables f).trans (first.tables f)
  routes r member p k u route := second.routes r member p k u (first.routes r member p k u route)
  uppers r member p := (second.uppers r member p).trans (first.uppers r member p)
  data f absent := (second.data f ((first.tables f).trans absent)).trans (first.data f absent)
  head := second.head.trans first.head
  free := second.free.trans first.free
  shared := second.shared.trans first.shared
  cr3 := second.cr3.trans first.cr3
  used := second.used.trans first.used
  disk := second.disk.trans first.disk
  active := second.active.trans first.active
  fifo := second.fifo.trans first.fifo

theorem Aging.remember (aging : Aging s s' live) (replacers : Replacers)
    (same : replacers.active = s'.replacers.active) (arrivals : replacers.fifo = s'.replacers.fifo) :
    Aging s { s' with replacers := replacers } live :=
  ⟨aging.leaves, aging.tables, aging.routes, aging.uppers, aging.data, aging.head, aging.free,
    aging.shared, aging.cr3, aging.used, aging.disk, same.trans aging.active,
    arrivals.trans aging.fifo⟩

theorem Aging.owners (aging : Aging s s' live) (table : List (Word × Nat)) :
    Aging { s with shared := table } { s' with shared := table } live :=
  ⟨aging.leaves, aging.tables, aging.routes, aging.uppers, aging.data, aging.head, aging.free, rfl,
    aging.cr3, aging.used, aging.disk, aging.active, aging.fifo⟩

theorem Aging.onPage (aging : Aging s s' live) (member : root ∈ live) {page : Page}
    (on : OnPage s.words root page) : OnPage s'.words root page :=
  ⟨on.low, on.index, aging.routes root member _ _ _ on.route⟩

theorem Aging.write (books : Books s managed live hand chain) (member : root ∈ live) {page : Page}
    (on : OnPage s.words root page) {e : Word}
    (same : ageless e = ageless (s.words page.table page.index)) :
    Aging s (s.write page.table page.index e) live := by
  classical
  rw [on.index] at same ⊢
  have sets := LeafSet.write books member on.route e
  refine ⟨fun r there p => ?_, sets.tables, sets.routes, sets.uppers,
    fun f absent => sets.data member absent,
    rfl, rfl, rfl, rfl, rfl, rfl, rfl, rfl⟩
  rw [sets.leaves r there p]
  split_ifs with here
  · obtain ⟨rfl, follows⟩ := here
    rw [same, ← entryAt_route on.route]
    exact congrArg ageless (entryAt_indexes fun j low => (follows j low).symm)
  · rfl

theorem names_ageless {f e e' : Word} (same : ageless e' = ageless e) : names f e' = names f e := by
  simp only [names, present_ageless same, frameOf_ageless same]

theorem Aging.books (aging : Aging s s' live) (books : Books s managed live hand chain) :
    Books s' managed live hand chain := by
  have refs : ∀ f, refCount s'.words live f = refCount s.words live f := fun f =>
    forest_entries (by simp [names, has, userTree]) fun r member q =>
      names_ageless (aging.leaves r member q)
  refine ⟨⟨?_, aging.free.trans books.account.count, fun f => ?_, fun f => ?_, ?_,
    books.account.framed⟩, fun r member p low => ?_⟩
  · rw [aging.head]
    refine books.account.linked.congr fun f inside => aging.data f ?_
    have bound := books.account.le_one f
    have counted := List.count_pos_iff.mpr inside
    omega
  · rw [aging.tables, refs]
    exact books.account.once f
  · rw [refs, ← books.account.owners f]
    simp only [Paging.shareCount, aging.shared]
  · rw [aging.shared]
    exact books.account.shared
  · rw [aging.uppers r member p]
    exact books.sound r member p low

end Ages

end FiveAM.Memory.Residency
